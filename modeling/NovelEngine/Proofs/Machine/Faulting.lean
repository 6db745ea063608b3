import NovelEngine.Proofs.Machine.Amending
import NovelEngine.Proofs.Machine.Halting
import NovelEngine.Proofs.Machine.Operands

/-!
# Faults are confined

A fault ends its thread. For everything else it is as if the thread had come to an instruction that ends it, right
behind the operands of the one that has failed: the tick goes on as it would have gone on then, and comes to the same.
-/
namespace NovelEngine

variable {σ : Type}

/-- What executes the instruction that a thread stands at. -/
abbrev Stepping (σ : Type) := ThreadId → Thread → World σ → StepOutcome σ

/-- Reads the operands of an instruction that can meet a fault, and does nothing with them. -/
def Instruction.readOperands : Instruction → Exec σ Unit
  | .call => Exec.expr >>= fun _ => Exec.shared >>= fun s =>
    if s.options.useReturnIds then Exec.readU16 >>= fun _ => pure () else pure ()
  | .threadCreate => Exec.expr >>= fun _ => Exec.expr >>= fun _ => pure ()
  | _ => pure ()

def runBy (exec : Thread → World σ → StepOutcome σ) : Nat → Thread → World σ → TurnOutcome σ
  | 0, thread, world => ⟨thread, world, 0, 0, none⟩
  | budget + 1, thread, world =>
    if thread.script.codeEnd ≤ thread.pc then ⟨thread.terminate, world, 0, 0, none⟩
    else
      let s := exec thread world
      match s.ending with
      | .went .next => (runBy exec budget s.thread s.world).afterStep
      | .went _ => ⟨s.thread, s.world, 1, 0, none⟩
      | .faulted => ⟨s.thread, s.world, 1, 1, none⟩
      | .halted halt => ⟨s.thread, s.world, 0, 0, some halt⟩

def TurnsOutcome.after (o : TurnsOutcome σ) (counts : Nat × Nat) : TurnsOutcome σ :=
  { o with result := o.result.map fun c => (counts.1 + c.1, counts.2 + c.2) }

variable [Stage σ]

def turnBy (exec : Thread → World σ → StepOutcome σ) (delta : Single) (thread : Thread) (world : World σ) :
    TurnOutcome σ :=
  if thread.paused then ⟨thread, world, 0, 0, none⟩
  else
    let r := thread.poll delta world.shared.globals (Stage.status world.stage)
    if r.1 then runBy exec world.shared.options.instructionsPerTick.toNat r.2 world
    else ⟨r.2, world, 0, 0, none⟩

def turnsBy (exec : Stepping σ) (delta : Single) : List ThreadId → World σ → TurnsOutcome σ
  | [], world => ⟨world, .ok (0, 0)⟩
  | id :: ids, world =>
    match world.shared.threads.checkout id with
    | none => turnsBy exec delta ids world
    | some (thread, threads) =>
      let o := turnBy (exec id) delta thread (world.lending threads)
      match o.halt with
      | some halt => ⟨o.back id, .error halt⟩
      | none => (turnsBy exec delta ids (o.back id)).after (o.executed, o.faulted)

def Machine.concluding (m : Machine) (o : TurnsOutcome σ) : TickOutcome σ :=
  let m : Machine := { m with shared := o.world.shared }
  match o.result with
  | .error halt => ⟨m, o.world.stage, .error halt⟩
  | .ok counts =>
    let m := m.applyRequests.value.reap
    ⟨m, o.world.stage, .ok ⟨counts.1, m.liveThreads, counts.2⟩⟩

/-- A tick by other steps than those of the machine. -/
def Machine.tickBy (m : Machine) (exec : Stepping σ) (delta : Single) (stage : σ) : TickOutcome σ :=
  m.concluding (turnsBy exec delta m.order ⟨m.shared, stage⟩)

def Stepping.plain : Stepping σ := fun id thread world => (step id thread world).value

/-- As a step, but where an instruction meets a fault, its operands are read from where it has begun, and then what ends
a thread is executed in its place. -/
def endStep (id : ThreadId) (thread : Thread) (world : World σ) : StepOutcome σ :=
  match (thread.cursorAt thread.pc).opcode with
  | .error d => ⟨.halted ⟨id, thread.pc, d⟩, thread, world⟩
  | .ok (opcode, _) =>
    let i := world.shared.options.instructionSet.instruction opcode
    let t : Turn σ := ⟨thread, thread.pc + 2, world⟩
    match (i.run opcode).result t with
    | (.error (.fault _), _) =>
      stepResult id thread.pc ((i.readOperands >>= fun _ => Instruction.exit.run opcode).result t)
    | r => stepResult id thread.pc r

/-- The steps of the machine, but for those of one thread that meet faults. -/
def Stepping.ending (own : ThreadId) : Stepping σ := fun id =>
  if id = own then endStep id else Stepping.plain id

theorem ending_self (own : ThreadId) : (Stepping.ending own : Stepping σ) own = endStep own := if_pos rfl

theorem ending_of_ne {id own : ThreadId} (h : id ≠ own) : (Stepping.ending own : Stepping σ) id = Stepping.plain id :=
  if_neg h

section

variable {id own : ThreadId} {thread : Thread} {world w : World σ} {delta : Single} {exec : Stepping σ}
  {ids before : List ThreadId} {counts : Nat × Nat}

theorem runBy_plain (id : ThreadId) (budget : Nat) (thread : Thread) (world : World σ) :
    runBy (Stepping.plain id) budget thread world = (runFor id budget thread world).value := by
  induction budget generalizing thread world with
  | zero => rfl
  | succ budget ih =>
    rw [runBy, runFor_succ_value]
    dsimp only
    rw [ih]
    rfl

theorem turnBy_plain (id : ThreadId) (delta : Single) (thread : Thread) (world : World σ) :
    turnBy (Stepping.plain id) delta thread world = (turn delta id thread world).value := by
  simp only [turn_value, turnBy, runBy_plain]

theorem turnsBy_cons_of_checkout (exec : Stepping σ) (delta : Single) {threads : Arena Thread} (ids : List ThreadId)
    (hlent : world.shared.threads.checkout id = some (thread, threads)) :
    turnsBy exec delta (id :: ids) world =
      let o := turnBy (exec id) delta thread (world.lending threads)
      match o.halt with
      | some halt => ⟨o.back id, .error halt⟩
      | none => (turnsBy exec delta ids (o.back id)).after (o.executed, o.faulted) := by
  rw [turnsBy, hlent]

theorem turnsBy_of_plain (h : ∀ id ∈ ids, exec id = Stepping.plain id) (world : World σ) :
    turnsBy exec delta ids world = (turns delta ids world).value := by
  induction ids generalizing world with
  | nil => rfl
  | cons id ids ih =>
    obtain ⟨hid, hids⟩ := List.forall_mem_cons.mp h
    cases hlent : world.shared.threads.checkout id with
    | none =>
      rw [turnsBy, turns_cons_value, hlent]
      exact ih hids world
    | some p =>
      obtain ⟨thread, threads⟩ := p
      rw [turnsBy_cons_of_checkout exec delta ids hlent, turns_cons_of_checkout delta ids hlent]
      simp only [hid, turnBy_plain, ih hids]
      rfl

omit [Stage σ] in
theorem Machine.concluding_error {m : Machine} {o : TurnsOutcome σ} {halt : Halt} (h : o.result = .error halt) :
    m.concluding o = ⟨{ m with shared := o.world.shared }, o.world.stage, .error halt⟩ := by
  rw [concluding, h]

omit [Stage σ] in
theorem Machine.concluding_ok {m : Machine} {o : TurnsOutcome σ} (h : o.result = .ok counts) :
    m.concluding o =
      let after := ({ m with shared := o.world.shared } : Machine).applyRequests.value.reap
      ⟨after, o.world.stage, .ok ⟨counts.1, after.liveThreads, counts.2⟩⟩ := by
  rw [concluding, h]

theorem Machine.tick_eq_concluding (m : Machine) (delta : Single) (stage : σ) :
    (m.tick delta stage).value = m.concluding (turns delta m.order ⟨m.shared, stage⟩).value := by
  rw [tick_value, concluding]
  generalize (turns delta m.order ⟨m.shared, stage⟩).value = o
  obtain ⟨w, _ | _⟩ := o <;> rfl

theorem Machine.tickBy_plain (m : Machine) (delta : Single) (stage : σ) :
    m.tickBy .plain delta stage = (m.tick delta stage).value := by
  rw [tickBy, tick_eq_concluding, turnsBy_of_plain fun _ _ => rfl]

omit [Stage σ] in
theorem TurnsOutcome.after_zero (o : TurnsOutcome σ) : o.after (0, 0) = o := by
  obtain ⟨w, _ | ⟨executed, faulted⟩⟩ := o
  · rfl
  · simp [after, Except.map]

omit [Stage σ] in
theorem TurnsOutcome.after_after (o : TurnsOutcome σ) (counts first : Nat × Nat) :
    (o.after counts).after first = o.after (first.1 + counts.1, first.2 + counts.2) := by
  obtain ⟨w, _ | c⟩ := o
  · rfl
  · simp [after, Except.map, Nat.add_assoc]

omit [Stage σ] in
theorem TurnsOutcome.exists_of_after {o : TurnsOutcome σ} {first : Nat × Nat} (h : o.after first = ⟨w, .ok counts⟩) :
    ∃ c, o = ⟨w, .ok c⟩ ∧ counts = (first.1 + c.1, first.2 + c.2) := by
  obtain ⟨w', _ | c⟩ := o
  · cases h
  · cases h
    exact ⟨c, rfl, rfl⟩

theorem turnsBy_append (h : turnsBy exec delta before world = ⟨w, .ok counts⟩) (ids : List ThreadId) :
    turnsBy exec delta (before ++ ids) world = (turnsBy exec delta ids w).after counts := by
  induction before generalizing world counts with
  | nil =>
    cases h
    exact (TurnsOutcome.after_zero _).symm
  | cons id before ih =>
    rw [List.cons_append, turnsBy]
    rw [turnsBy] at h
    cases hlent : world.shared.threads.checkout id with
    | none =>
      rw [hlent] at h
      exact ih h
    | some p =>
      rw [hlent] at h
      revert h
      dsimp only
      generalize turnBy (exec id) delta p.1 (world.lending p.2) = o
      cases o.halt with
      | some halt =>
        intro h
        cases h
      | none =>
        intro h
        obtain ⟨c, hbefore, rfl⟩ := TurnsOutcome.exists_of_after h
        exact (congrArg (TurnsOutcome.after · (o.executed, o.faulted)) (ih hbefore)).trans
          (TurnsOutcome.after_after _ _ _)

end

variable {id own : ThreadId} {thread : Thread} {world w : World σ} {delta : Single} {budget : Nat}

/-- The operands that an instruction has read when it meets a fault, and their bytes. Where the positions that calls
return to are numbered, the number stands behind the label of a call. -/
inductive Instruction.Exposes (ids : Bool) : Instruction → List Expr → Bytes → Prop
  | call (label : Expr) (hids : ids = false) : Exposes ids .call [label] (label.encode ++ [0])
  | numbered (label : Expr) (number : UInt16) (hids : ids = true) :
    Exposes ids .call [label] (label.encode ++ [0] ++ toLittleEndian 2 number.toNat)
  | ret : Exposes ids .ret [] []
  | create (buffer label : Expr) :
    Exposes ids .threadCreate [buffer, label] (buffer.encode ++ [0] ++ (label.encode ++ [0]))

namespace Instruction

open Exec

variable {opcode : UInt16} {f : Fault} {t t' : Turn σ}

theorem exposes_call (h : (call.run opcode).result t = (.error (.fault f), t')) :
    ∃ operands chunk, call.Exposes t.world.shared.options.useReturnIds operands chunk ∧ t.Passes operands chunk t' ∧
      call.readOperands.result t = (.ok (), t') := by
  rw [result_call] at h
  obtain ⟨value, t₁, hlabel, hrest⟩ := Probe.expr.faultless.exists_of_bind h
  obtain ⟨target, t₂, htarget, henter⟩ := composed_returnPosition.faultless.exists_of_bind hrest
  have hsame : t' = t₂ := by
    rw [result_enter] at henter
    cases hpush : t₂.thread.calls.push target with
    | error f' =>
      rw [hpush] at henter
      cases henter
      rfl
    | ok calls =>
      rw [hpush] at henter
      cases hpos : t₂.thread.script.label value with
      | error d =>
        rw [hpos] at henter
        cases henter
      | ok pos =>
        rw [hpos] at henter
        cases henter
  subst hsame
  obtain ⟨label, hpasses⟩ := passes_expr hlabel
  have hoptions : t₁.world.shared.options = t.world.shared.options := by
    rw [hpasses.turn_eq]
    rfl
  have hread : call.readOperands.result t = (if t₁.world.shared.options.useReturnIds then
      readU16 >>= fun _ => pure () else pure () : Exec σ Unit).result t₁ := by
    rw [readOperands, result_bind_of_ok hlabel]
    rfl
  rw [hread]
  rcases returnPosition_cases htarget with ⟨hids, -, rfl⟩ | ⟨hids, number, hnumber, -⟩
  · rw [hids]
    exact ⟨_, _, .call label (hoptions ▸ hids), hpasses, rfl⟩
  · rw [hids, if_pos rfl, result_bind_of_ok hnumber]
    exact ⟨_, _, .numbered label number (hoptions ▸ hids), hpasses.trans (passes_readU16 hnumber), rfl⟩

theorem exposes_ret (h : (ret.run opcode).result t = (.error (.fault f), t')) :
    ∃ operands chunk, ret.Exposes t.world.shared.options.useReturnIds operands chunk ∧ t.Passes operands chunk t' ∧
      ret.readOperands.result t = (.ok (), t') := by
  rw [result_ret] at h
  cases hframes : t.thread.calls.frames with
  | nil =>
    rw [hframes] at h
    cases h
    exact ⟨[], [], .ret, .refl t, rfl⟩
  | cons frame frames =>
    rw [hframes] at h
    cases h

theorem exposes_create (h : (threadCreate.run opcode).result t = (.error (.fault f), t')) :
    ∃ operands chunk, threadCreate.Exposes t.world.shared.options.useReturnIds operands chunk ∧
      t.Passes operands chunk t' ∧ threadCreate.readOperands.result t = (.ok (), t') := by
  obtain ⟨first, t₁, hfirst, hrest⟩ := Probe.expr.faultless.exists_of_bind h
  obtain ⟨second, t₂, hsecond, hrest⟩ := Probe.expr.faultless.exists_of_bind hrest
  replace hrest : (create first second).result t₂ = (.error (.fault f), t') := hrest
  rw [result_create] at hrest
  cases hspawn : t₂.world.shared.spawn first.toInt second with
  | ok p =>
    rw [hspawn] at hrest
    cases hrest
  | error f' =>
    rw [hspawn] at hrest
    cases hrest
    obtain ⟨buffer, hbuffer⟩ := passes_expr hfirst
    obtain ⟨label, hlabel⟩ := passes_expr hsecond
    refine ⟨_, _, .create buffer label, hbuffer.trans hlabel, ?_⟩
    rw [readOperands, result_bind_of_ok hfirst, result_bind_of_ok hsecond]
    rfl

/-- An instruction that meets a fault has read its operands and done nothing else. -/
theorem exposes_run {i : Instruction} (h : (i.run opcode).result t = (.error (.fault f), t')) :
    ∃ operands chunk, i.Exposes t.world.shared.options.useReturnIds operands chunk ∧ t.Passes operands chunk t' ∧
      i.readOperands.result t = (.ok (), t') := by
  by_cases hcall : i = .call
  · subst hcall
    exact exposes_call h
  by_cases hret : i = .ret
  · subst hret
    exact exposes_ret h
  by_cases hcreate : i = .threadCreate
  · subst hcreate
    exact exposes_create h
  · exact (faultless_run opcode i hcall hret hcreate t f (congrArg Prod.fst h)).elim

end Instruction

/-- A step that has met a fault is one of a call, a return or the creation of a thread. It has read its operands behind
the opcode. The variables that these write have changed, its thread has ended, and that is all. -/
inductive StepOutcome.Faults (s : StepOutcome σ) (thread : Thread) (world : World σ) : Prop
  | intro (operands : List Expr) (chunk : Bytes)
    (hoperands : (instructionAt thread world).Exposes world.shared.options.useReturnIds operands chunk)
    (hchunk : chunk <+: thread.script.code.drop (thread.pc + 2))
    (hthread : s.thread = { thread with
      locals := (Expr.scopeAfter operands ⟨world.shared.globals, thread.locals, thread.result⟩).locals
      state := .terminated })
    (hworld : s.world = { world with
      shared.globals := (Expr.scopeAfter operands ⟨world.shared.globals, thread.locals, thread.result⟩).globals })
    (hflags : s.world.shared.globals.flagWords = world.shared.globals.flagWords)

omit [Stage σ] in
theorem StepOutcome.Faults.instruction {s : StepOutcome σ} (h : s.Faults thread world) :
    instructionAt thread world = .call ∨ instructionAt thread world = .ret ∨
      instructionAt thread world = .threadCreate := by
  obtain ⟨operands, chunk, hoperands, -, -, -, -⟩ := h
  generalize instructionAt thread world = i at hoperands ⊢
  cases hoperands <;> simp

omit [Stage σ] in
theorem StepOutcome.Faults.thread_eq {s : StepOutcome σ} (h : s.Faults thread world) :
    s.thread = { thread with locals := s.thread.locals, state := .terminated } := by
  obtain ⟨operands, chunk, -, -, hthread, -, -⟩ := h
  rw [hthread]

theorem faults_step (h : (step id thread world).value.ending = .faulted) :
    (step id thread world).value.Faults thread world := by
  rw [step_value] at h ⊢
  cases hopcode : (thread.cursorAt thread.pc).opcode with
  | error d =>
    rw [hopcode] at h
    cases h
  | ok p =>
    let i := world.shared.options.instructionSet.instruction p.1
    let t : Turn σ := ⟨thread, thread.pc + 2, world⟩
    have hat : instructionAt thread world = i := by rw [instructionAt, hopcode]
    rw [hopcode] at h
    replace h : (stepResult id thread.pc ((i.run p.1).result t)).ending = .faulted := h
    show (stepResult id thread.pc ((i.run p.1).result t)).Faults thread world
    cases hrun : (i.run p.1).result t with
    | mk r t' =>
      rw [hrun] at h
      obtain (d | f) | flow := r
      · cases h
      · obtain ⟨operands, chunk, hoperands, hpasses, -⟩ := Instruction.exposes_run hrun
        have hrest : thread.script.codeFrom (thread.pc + 2) = chunk ++ _ := hpasses.passes.rest_eq
        rw [Script.codeFrom_eq_drop] at hrest
        rw [hpasses.turn_eq]
        exact .intro operands chunk (hat ▸ hoperands) ⟨_, hrest.symm⟩ rfl rfl (Expr.scopeAfter_keeps _ _).2
      · cases h

theorem endStep_of_not_faulted (h : (step id thread world).value.ending ≠ .faulted) :
    endStep id thread world = (step id thread world).value := by
  rw [step_value] at h ⊢
  rw [endStep]
  cases hopcode : (thread.cursorAt thread.pc).opcode with
  | error d => rfl
  | ok p =>
    rw [hopcode] at h
    revert h
    dsimp only
    generalize Exec.result _ _ = r
    obtain ⟨(d | f) | flow, t⟩ := r
    · exact fun _ => rfl
    · exact fun h => absurd rfl h
    · exact fun _ => rfl

/-- In place of the fault the thread ends, behind the operands that have been read. -/
theorem exists_endStep_of_faulted (h : (step id thread world).value.ending = .faulted) :
    ∃ pc, endStep id thread world = ⟨.went .exit, { (step id thread world).value.thread with pc },
      (step id thread world).value.world⟩ := by
  rw [step_value] at h ⊢
  rw [endStep]
  cases hopcode : (thread.cursorAt thread.pc).opcode with
  | error d =>
    rw [hopcode] at h
    cases h
  | ok p =>
    let i := world.shared.options.instructionSet.instruction p.1
    let t : Turn σ := ⟨thread, thread.pc + 2, world⟩
    rw [hopcode] at h
    replace h : (stepResult id thread.pc ((i.run p.1).result t)).ending = .faulted := h
    cases hrun : (i.run p.1).result t with
    | mk r t' =>
      rw [hrun] at h
      obtain (d | f) | flow := r
      · cases h
      · obtain ⟨-, -, -, -, hread⟩ := Instruction.exposes_run hrun
        refine ⟨t'.pc, ?_⟩
        dsimp only
        rw [hrun]
        dsimp only
        rw [Exec.result_bind_of_ok hread]
        rfl
      · cases h

/-- The outcome of a turn that has ended its thread in place of a fault. -/
def TurnOutcome.endedAt (o : TurnOutcome σ) (pc : Nat) : TurnOutcome σ :=
  { o with thread := { o.thread with pc }, faulted := 0 }

theorem exists_runBy_endStep (id : ThreadId) (budget : Nat) (thread : Thread) (world : World σ) :
    ∃ pc, runBy (endStep id) budget thread world = (runFor id budget thread world).value.endedAt pc := by
  induction budget generalizing thread world with
  | zero => exact ⟨thread.pc, rfl⟩
  | succ budget ih =>
    rw [runBy, runFor_succ_value]
    split
    · exact ⟨thread.pc, rfl⟩
    by_cases hfault : (step id thread world).value.ending = .faulted
    · obtain ⟨pc, hend⟩ := exists_endStep_of_faulted hfault
      rw [hend]
      simp only [hfault]
      exact ⟨pc, rfl⟩
    · rw [endStep_of_not_faulted hfault]
      obtain ⟨pc, hrest⟩ := ih (step id thread world).value.thread (step id thread world).value.world
      revert hfault hrest
      generalize (step id thread world).value = s
      obtain ⟨(_ | _ | _ | _ | _) | _ | _, thread', world'⟩ := s
      · intro _ hrest
        exact ⟨pc, congrArg TurnOutcome.afterStep hrest⟩
      · exact fun _ _ => ⟨thread'.pc, rfl⟩
      · exact fun _ _ => ⟨thread'.pc, rfl⟩
      · exact fun _ _ => ⟨thread'.pc, rfl⟩
      · exact fun _ _ => ⟨thread'.pc, rfl⟩
      · exact fun hfault => absurd rfl hfault
      · exact fun _ _ => ⟨thread'.pc, rfl⟩

theorem exists_turnBy_endStep (id : ThreadId) (delta : Single) (thread : Thread) (world : World σ) :
    ∃ pc, turnBy (endStep id) delta thread world = (turn delta id thread world).value.endedAt pc := by
  rw [turnBy, turn_value]
  split
  · exact ⟨thread.pc, rfl⟩
  · dsimp only
    split
    · exact exists_runBy_endStep id _ _ _
    · exact ⟨_, rfl⟩

theorem thread_of_turn_halt {halt : Halt} (h : (turn delta id thread world).value.halt = some halt) :
    halt.thread = id := by
  rw [turn_value] at h
  split at h
  · cases h
  · dsimp only at h
    split at h
    · obtain ⟨executed, -, -, hclosing⟩ := exists_closing_of_runFor (.inl (Option.ne_none_iff_exists'.mpr ⟨_, h⟩))
      rw [hclosing] at h
      exact (halts_step (TurnOutcome.closing_of_halt h).1).halt_thread
    · cases h

theorem mem_of_turns_halt {ids : List ThreadId} {halt : Halt} (h : (turns delta ids world).value.result = .error halt) :
    halt.thread ∈ ids := by
  obtain ⟨before, id, rest, w, counts, thread, threads, rfl, -, -, hhalt, -⟩ := exists_halts_of_turns h
  rw [thread_of_turn_halt hhalt]
  exact List.mem_append_right _ List.mem_cons_self

/-- The turns `spared` lack one fault of the turns `faulty`, and have left `new` of the thread that it has ended. -/
structure TurnsOutcome.Spares (own : ThreadId) (new : Thread) (spared faulty : TurnsOutcome σ) : Prop where
  world_eq : spared.world = faulty.world.amending own new
  result_eq : faulty.result = spared.result.map fun c => (c.1, c.2 + 1)
  /-- A halt is one of another thread. -/
  other : ∀ halt, faulty.result = .error halt → halt.thread ≠ own

omit [Stage σ] in
theorem TurnsOutcome.Spares.after {new : Thread} {spared faulty : TurnsOutcome σ} (h : Spares own new spared faulty)
    (counts : Nat × Nat) : Spares own new (spared.after counts) (faulty.after counts) := by
  obtain ⟨world, halt | c⟩ := spared
  · obtain ⟨world', halt' | c'⟩ := faulty
    · exact ⟨h.world_eq, h.result_eq, fun e he => h.other e he⟩
    · cases h.result_eq
  · obtain ⟨world', halt' | c'⟩ := faulty
    · cases h.result_eq
    · obtain rfl := Except.ok.inj h.result_eq
      exact ⟨h.world_eq, rfl, nofun⟩

omit [Stage σ] in
theorem TurnOutcome.back_endedAt {o : TurnOutcome σ} (h : o.world.shared.threads.tenant? own = some .lent) (pc : Nat) :
    (o.endedAt pc).back own = (o.back own).amending own { o.thread with pc } :=
  congrArg (fun threads => (⟨{ o.world.shared with threads }, o.world.stage⟩ : World σ))
    (Arena.checkin_eq_put h o.thread { o.thread with pc })

omit [Stage σ] in
theorem TurnsOutcome.spares_after {o : TurnOutcome σ} {r : TurnsOutcome σ} {new : Thread} (hfault : o.faulted = 1)
    (hother : ∀ halt, r.result = .error halt → halt.thread ≠ own) :
    Spares own new ((r.amending own new).after (o.executed, 0)) (r.after (o.executed, o.faulted)) := by
  obtain ⟨world, halt | c⟩ := r
  · exact ⟨rfl, rfl, hother⟩
  · refine ⟨rfl, ?_, nofun⟩
    have hcount : o.faulted + c.2 = 0 + c.2 + 1 := by omega
    exact congrArg (fun n => Except.ok (o.executed + c.1, n)) hcount

theorem turnsBy_ending_of_not_mem {ids : List ThreadId} (h : own ∉ ids) (delta : Single) (world : World σ) :
    turnsBy (.ending own) delta ids world = (turns delta ids world).value :=
  turnsBy_of_plain (fun id hid => ending_of_ne fun (heq : id = own) => h (heq ▸ hid)) world

theorem exists_spares_turns {threads : Arena Thread} {wanted : Nat} {order rest : List ThreadId}
    (h : world.Consistent wanted order none) (hlent : world.shared.threads.checkout own = some (thread, threads))
    (hrest : own ∉ rest) (hhalt : (turn delta own thread (world.lending threads)).value.halt = none)
    (hfault : (turn delta own thread (world.lending threads)).value.faulted = 1) :
    ∃ pc, TurnsOutcome.Spares own { (turn delta own thread (world.lending threads)).value.thread with pc }
      (turnsBy (.ending own) delta (own :: rest) world) (turns delta (own :: rest) world).value := by
  have hback := turns_consistent_back delta h hlent
  have hself := get?_back_self delta h hlent
  have hlent' := (consistent_turn delta own thread (lending_consistent h hlent)).lent_iff own
  obtain ⟨pc, hturn⟩ := exists_turnBy_endStep own delta thread (world.lending threads)
  have hspared := turnsBy_cons_of_checkout (.ending own) delta rest hlent
  have hfaulty := turns_cons_of_checkout delta rest hlent
  dsimp only at hspared hfaulty
  rw [ending_self, hturn] at hspared
  refine ⟨pc, ?_⟩
  revert hhalt hfault hback hself hlent' hspared hfaulty
  generalize (turn delta own thread (world.lending threads)).value = o
  intro hhalt hfault hback hself hlent' hspared hfaulty
  have hhalt' : (o.endedAt pc).halt = none := hhalt
  rw [hhalt', TurnOutcome.back_endedAt (hlent'.mpr rfl), turnsBy_ending_of_not_mem hrest,
    turns_amending delta hrest hback hself] at hspared
  rw [hhalt] at hfaulty
  rw [hspared, hfaulty]
  exact TurnsOutcome.spares_after hfault fun halt herror heq => hrest (heq ▸ mem_of_turns_halt herror)

namespace Machine

variable {m : Machine} {stage : σ} {o : TurnOutcome σ} {wanted : Nat} {options : MachineOptions}
  {library : Option ScriptLibrary}

/-- The turn `o` is ended by a fault of the instruction at the boundary `b`. It has written variables at most: no
thread is new, nothing is asked for. -/
structure FaultsAt (m : Machine) (delta : Single) (stage : σ) (own : ThreadId) (o b : TurnOutcome σ) : Prop where
  boundary : m.Boundary delta stage own b
  failing : b.halt = none ∧ (step own b.thread b.world).value.ending = .faulted
  faults : (step own b.thread b.world).value.Faults b.thread b.world
  outcome_eq : o =
    ⟨(step own b.thread b.world).value.thread, (step own b.thread b.world).value.world, b.executed + 1, 1, none⟩

theorem Takes.exists_faultsAt (ho : m.Takes delta stage own world thread o) (hfault : o.faulted ≠ 0) :
    ∃ b, m.FaultsAt delta stage own o b := by
  obtain ⟨b, hboundary, hb, hclosing⟩ := ho.exists_boundary_closing (.inr hfault)
  rw [hclosing] at hfault
  obtain ⟨hending, hfaulty⟩ := TurnOutcome.closing_of_faulted hfault
  exact ⟨b, hboundary, ⟨hb, hending⟩, faults_step hending, hclosing.trans hfaulty⟩

/-- The turn of a thread that has met a fault is one of a tick that would have come to the same if the thread had
ended there. -/
structure Absorbs (m : Machine) (delta : Single) (stage : σ) (own : ThreadId) (o : TurnOutcome σ) : Prop where
  fault : ∃ b, m.FaultsAt delta stage own o b
  result_eq : (m.tick delta stage).value.result =
    (m.tickBy (.ending own) delta stage).result.map fun r => { r with faulted := r.faulted + 1 }
  stage_eq : (m.tick delta stage).value.stage = (m.tickBy (.ending own) delta stage).stage
  requests_eq : (m.turned delta stage).shared.requests =
    (turnsBy (.ending own) delta m.order ⟨m.shared, stage⟩).world.shared.requests
  finished : ∀ report, (m.tick delta stage).value.result = .ok report →
    (m.tick delta stage).value.machine = (m.tickBy (.ending own) delta stage).machine ∧
      own ∉ (m.tick delta stage).value.machine.order ∧
      (m.tick delta stage).value.machine.shared.threads.contains own = false
  /-- A halt is one of a later thread, and only the position of the ended one tells the ticks apart. -/
  halted : ∀ halt, (m.tick delta stage).value.result = .error halt → halt.thread ≠ own ∧
    (m.tick delta stage).value.machine.ended own = true ∧
    ∃ pc, (m.tickBy (.ending own) delta stage).machine = (m.tick delta stage).value.machine.displaced own pc

/-- The turns with the fault and those without it differ in one count and in the position of the ended thread. -/
theorem Takes.exists_spares (ho : m.Takes delta stage own world thread o) (h : m.Pending wanted m.shared.requests)
    (hhalt : o.halt = none) (hfault : o.faulted = 1) :
    ∃ pc, TurnsOutcome.Spares own { o.thread with pc } (turnsBy (.ending own) delta m.order ⟨m.shared, stage⟩)
      (turns delta m.order ⟨m.shared, stage⟩).value := by
  have hw := ho.consistent h
  obtain @⟨before, rest, _, counts, _, threads, horder, hbefore, hlent⟩ := ho
  obtain ⟨hnotBefore, hnotRest⟩ := h.not_mem_of_order horder
  have hplain (ids : List ThreadId) (world : World σ) :
      turnsBy .plain delta ids world = (turns delta ids world).value :=
    turnsBy_of_plain (fun _ _ => rfl) world
  have hfaulty : (turns delta m.order ⟨m.shared, stage⟩).value =
      (turns delta (own :: rest) world).value.after counts := by
    rw [horder, ← hplain, ← hplain]
    exact turnsBy_append ((hplain _ _).trans hbefore) _
  have hspared : turnsBy (.ending own) delta m.order ⟨m.shared, stage⟩ =
      (turnsBy (.ending own) delta (own :: rest) world).after counts := by
    rw [horder]
    exact turnsBy_append ((turnsBy_ending_of_not_mem hnotBefore delta _).trans hbefore) _
  obtain ⟨pc, hspares⟩ := exists_spares_turns hw hlent hnotRest hhalt hfault
  rw [hspared, hfaulty]
  exact ⟨pc, hspares.after counts⟩

/-- The end of a tick is the same wherever a thread that has ended has stood. -/
theorem reap_applyRequests_displaced (h : m.Pending wanted m.shared.requests) (hown : own ∈ m.order)
    (hended : m.ended own = true) (pc : Nat) :
    (m.displaced own pc).applyRequests.value.reap = m.applyRequests.value.reap := by
  obtain ⟨t, ht⟩ := h.exists_thread? hown
  have hthere : (m.thread? own).isSome = true := Option.isSome_iff_exists.mpr ⟨t, ht⟩
  let cleared : Machine := { m with shared.requests := [] }
  have hdisplaced : (m.displaced own pc).applyRequests.value = m.applyRequests.value.displaced own pc := by
    have hcleared : ({ m.displaced own pc with shared.requests := [] } : Machine) = cleared.displaced own pc := by
      have ht' : cleared.thread? own = some t := ht
      rw [displaced_eq ht, displaced_eq ht']
      rfl
    have hrequests : (m.displaced own pc).shared.requests = m.shared.requests := by
      rw [displaced_eq ht]
      rfl
    rw [applyRequests, hcleared, hrequests]
    exact applyAll_displaced (m := cleared) hthere _ pc
  have hjoined := (ended_applyRequests hthere).mpr (.inl hended)
  obtain ⟨u, hu, huended⟩ := (Option.any_eq_true _ _).mp hjoined
  have hmem : own ∈ m.applyRequests.value.order := by
    rw [h.order_applyRequests]
    exact List.mem_append_left _ hown
  rw [hdisplaced, reap_displaced hu huended hmem]

/-- How two ticks compare of which the first one has a thread end by a fault and the second one without. -/
inductive Compares (m : Machine) (delta : Single) (stage : σ) (own : ThreadId) (faulty spared : TickOutcome σ) : Prop
  | halted (s : σ) (halt : Halt) (pc : Nat) (hother : halt.thread ≠ own)
    (hfaulty : faulty = ⟨m.turned delta stage, s, .error halt⟩)
    (hspared : spared = ⟨(m.turned delta stage).displaced own pc, s, .error halt⟩)
  | finished (s : σ) (executed live faulted : Nat)
    (hfaulty : faulty = ⟨(m.joined delta stage).reap, s, .ok ⟨executed, live, faulted + 1⟩⟩)
    (hspared : spared = ⟨(m.joined delta stage).reap, s, .ok ⟨executed, live, faulted⟩⟩)

theorem Takes.compares (ho : m.Takes delta stage own world thread o) (h : m.Pending wanted m.shared.requests)
    (hhalt : o.halt = none) (hfault : o.faulted = 1) (hended : (m.turned delta stage).ended own = true) :
    m.Compares delta stage own (m.tick delta stage).value (m.tickBy (.ending own) delta stage) ∧
      (m.turned delta stage).shared.requests =
        (turnsBy (.ending own) delta m.order ⟨m.shared, stage⟩).world.shared.requests := by
  have hturned : m.turned delta stage =
      { m with shared := (turns delta m.order ⟨m.shared, stage⟩).value.world.shared } :=
    congrArg (fun shared => ({ m with shared } : Machine)) (m.turned_shared delta stage)
  have hown := ho.turned h
  obtain ⟨pc, hworld, hresult, hlater⟩ := ho.exists_spares h hhalt hfault
  have hreap := reap_applyRequests_displaced (h.turned delta stage) ho.mem_order hended pc
  rw [tick_eq_concluding, tickBy]
  revert hturned hworld hresult hlater
  generalize (turns delta m.order ⟨m.shared, stage⟩).value = faulty
  generalize turnsBy (.ending own) delta m.order ⟨m.shared, stage⟩ = spared
  intro hturned hworld hresult hlater
  have hstage : spared.world.stage = faulty.world.stage := by
    rw [hworld]
    rfl
  have hdisplaced : ({ m with shared := spared.world.shared } : Machine) = (m.turned delta stage).displaced own pc := by
    rw [displaced_eq hown, hturned, hworld]
    rfl
  have hrequests : (m.turned delta stage).shared.requests = spared.world.shared.requests := by
    rw [hturned, hworld]
    rfl
  refine ⟨?_, hrequests⟩
  cases hspared : spared.result with
  | error halt =>
    rw [hspared] at hresult
    refine .halted faulty.world.stage halt pc (hlater halt hresult) ?_ ?_
    · rw [concluding_error hresult, hturned]
    · rw [concluding_error hspared, hdisplaced, hstage]
  | ok counts =>
    rw [hspared] at hresult
    refine .finished faulty.world.stage counts.1 (m.joined delta stage).reap.liveThreads counts.2 ?_ ?_
    · rw [concluding_ok hresult, ← hturned, joined]
    · rw [concluding_ok hspared, hdisplaced, hreap, hstage, joined]

/-- In every tick of a reachable machine a fault is absorbed by the end of its thread. -/
theorem Reachable.absorbs (h : Reachable options library m) (ho : m.Takes delta stage own world thread o)
    (hfault : o.faulted ≠ 0) : m.Absorbs delta stage own o := by
  have hpending := h.pending
  obtain ⟨b, hb⟩ := ho.exists_faultsAt hfault
  have hown : (m.turned delta stage).thread? own = some o.thread := ho.turned hpending
  have hthere : ((m.turned delta stage).thread? own).isSome = true := by rw [hown, Option.isSome_some]
  have hended : (m.turned delta stage).ended own = true := by
    rw [ended, hown, hb.outcome_eq, Option.any_some, hb.faults.thread_eq]
    rfl
  have hgone : own ∉ (m.joined delta stage).reap.order := by
    rw [joined, (hpending.turned delta stage).applyRequests.order_reap, List.mem_filter,
      (ended_applyRequests hthere).mpr (.inl hended)]
    simp
  have hsettled := (tick_books hpending delta stage).2
  obtain ⟨hcompares, hrequests⟩ :=
    ho.compares hpending (by rw [hb.outcome_eq]) (by rw [hb.outcome_eq]) hended
  cases hcompares with
  | halted s halt pc hother hfaulty hspared =>
    refine ⟨⟨b, hb⟩, ?_, ?_, hrequests, ?_, ?_⟩
    · rw [hfaulty, hspared]
      rfl
    · rw [hfaulty, hspared]
    · rw [hfaulty]
      intro report hok
      cases hok
    · rw [hfaulty, hspared]
      intro halt' herror
      cases herror
      exact ⟨hother, hended, pc, rfl⟩
  | finished s executed live faulted hfaulty hspared =>
    refine ⟨⟨b, hb⟩, ?_, ?_, hrequests, ?_, ?_⟩
    · rw [hfaulty, hspared]
      rfl
    · rw [hfaulty, hspared]
    · intro report hok
      have hlive := (hsettled report hok).live_iff own
      rw [hfaulty] at hlive
      rw [hfaulty, hspared]
      exact ⟨rfl, hgone, Bool.eq_false_iff.mpr fun hthere => hgone (hlive.mp hthere)⟩
    · rw [hfaulty]
      intro halt herror
      cases herror

/-- A thread asks for the end of another and then faults, as there is no script to start a thread of. The variable that
it has written stays, what it has asked for is done, and the thread behind it goes on. -/
theorem Reachable.absorbs_create :
    let script := Script.build 1 [0, 9, 0x83, 0, 0, 8, 0x85, 0x20, 7, 0, 0, 0x80, 0, 0, 7, 0x81, 0, 0, 1] [0, 13] []
    let start := (Machine.create {} none).value
    let loaded := (start.putScript 0 script).getD start
    let one := ((loaded.spawn 0 0).toOption.map Prod.snd).getD loaded
    let two := ((one.spawn 0 1).toOption.map Prod.snd).getD one
    let m := ((two.spawn 0 1).toOption.map Prod.snd).getD two
    let after := (m.tick Single.zero Recorder.empty).value
    Reachable {} none m ∧ (∃ world thread o, m.Takes Single.zero Recorder.empty ⟨1, 0⟩ world thread o ∧ o.faulted ≠ 0 ∧
      m.Absorbs Single.zero Recorder.empty ⟨1, 0⟩ o) ∧ after.result = .ok ⟨6, 1, 1⟩ ∧
      after.machine.order = [⟨2, 0⟩] ∧ after.machine.shared.globals.numbers[7] = 5 := by
  intro script start loaded one two m after
  have hloaded : Reachable {} none loaded := .putScript 0 script .create rfl
  have hone : Reachable {} none one := .spawn 0 0 ⟨1, 0⟩ hloaded rfl
  have htwo : Reachable {} none two := .spawn 0 1 ⟨2, 0⟩ hone rfl
  have hm : Reachable {} none m := .spawn 0 1 ⟨3, 0⟩ htwo rfl
  have horder : m.order = [] ++ ⟨1, 0⟩ :: [⟨2, 0⟩, ⟨3, 0⟩] := by decide +kernel
  have hlent := (Option.some_get (show (m.shared.threads.checkout ⟨1, 0⟩).isSome = true by decide +kernel)).symm
  obtain ⟨world, thread, o, htakes, hfault⟩ : ∃ world thread o,
      m.Takes Single.zero Recorder.empty ⟨1, 0⟩ world thread o ∧ o.faulted ≠ 0 :=
    ⟨_, _, _, .intro horder rfl hlent, by decide +kernel⟩
  exact ⟨hm, ⟨world, thread, o, htakes, hfault, hm.absorbs htakes hfault⟩, by decide +kernel,
    by decide +kernel, by decide +kernel⟩

end Machine
end NovelEngine
