import NovelEngine.Proofs.Machine.States

/-!
# The instructions of a turn

A run visits one instruction after the other. Each visit but the first finds the thread and the world as the one before
has left them, and the run comes to what it would come to from there. In a tick a thread is visited in its own turn.
-/
namespace NovelEngine

variable {σ : Type}

/-- A thread that is about to execute an instruction, and everything else. -/
structure Visit (σ : Type) where
  thread : Thread
  world : World σ

section

variable [Stage σ]

def Visit.outcome (v : Visit σ) (id : ThreadId) : StepOutcome σ := (step id v.thread v.world).value

/-- The instructions of a run, the last of which may fail. -/
def visits (id : ThreadId) : Nat → Thread → World σ → List (Visit σ)
  | 0, _, _ => []
  | budget + 1, thread, world =>
    if thread.script.codeEnd ≤ thread.pc then []
    else
      let s := (step id thread world).value
      ⟨thread, world⟩ :: if s.ending = .went .next then visits id budget s.thread s.world else []

def turnVisits (delta : Single) (id : ThreadId) (thread : Thread) (world : World σ) : List (Visit σ) :=
  if thread.paused then []
  else
    let r := thread.poll delta world.shared.globals (Stage.status world.stage)
    if r.1 then visits id world.shared.options.instructionsPerTick.toNat r.2 world else []

def turnsVisits (delta : Single) (own : ThreadId) : List ThreadId → World σ → List (Visit σ)
  | [], _ => []
  | id :: ids, world =>
    match world.shared.threads.checkout id with
    | none => turnsVisits delta own ids world
    | some (thread, threads) =>
      let o := (turn delta id thread (world.lending threads)).value
      (if id = own then turnVisits delta id thread (world.lending threads) else []) ++
        match o.halt with
        | some _ => []
        | none => turnsVisits delta own ids (o.back id)

variable {id : ThreadId} {budget n : Nat} {thread : Thread} {world : World σ} {v v' : Visit σ}

def Visit.start (v : Visit σ) : Turn σ := ⟨v.thread, v.thread.pc + 2, v.world⟩

/-- What the instruction has come to when its run is over, if its opcode can be read. -/
def Visit.run? (v : Visit σ) : Except Defect (Except Failure Flow × Turn σ) :=
  (v.thread.cursorAt v.thread.pc).opcode.map fun p => ((instructionAt v.thread v.world).run p.1).result v.start

theorem Visit.instructionAt_of_error {d : Defect} (h : v.run? = .error d) : instructionAt v.thread v.world = .unknown := by
  rw [Visit.run?] at h
  rw [instructionAt]
  cases hopcode : (v.thread.cursorAt v.thread.pc).opcode with
  | error d' => rfl
  | ok p =>
    rw [hopcode] at h
    cases h

theorem Visit.exists_opcode_of_ok {r : Except Failure Flow × Turn σ} (h : v.run? = .ok r) :
    ∃ p, (v.thread.cursorAt v.thread.pc).opcode = .ok p ∧
      ((instructionAt v.thread v.world).run p.1).result v.start = r := by
  rw [Visit.run?] at h
  cases hopcode : (v.thread.cursorAt v.thread.pc).opcode with
  | error d =>
    rw [hopcode] at h
    cases h
  | ok p =>
    rw [hopcode] at h
    exact ⟨p, rfl, Except.ok.inj h⟩

theorem Visit.outcome_eq (v : Visit σ) (id : ThreadId) : v.outcome id = match v.run? with
    | .error d => ⟨.halted ⟨id, v.thread.pc, d⟩, v.thread, v.world⟩
    | .ok r => stepResult id v.thread.pc r := by
  rw [outcome, step_value, Visit.run?, instructionAt]
  cases (v.thread.cursorAt v.thread.pc).opcode with
  | error d => rfl
  | ok p => rfl

theorem Visit.exists_run {flow : Flow} (h : (v.outcome id).ending = .went flow) : ∃ opcode rest t,
    (v.thread.cursorAt v.thread.pc).opcode = .ok (opcode, rest) ∧
      ((instructionAt v.thread v.world).run opcode).result ⟨v.thread, v.thread.pc + 2, v.world⟩ = (.ok flow, t) ∧
      v.outcome id = ⟨.went flow, t.thread.follow t.pc flow, t.world⟩ := by
  rw [outcome_eq] at h ⊢
  cases hrun : v.run? with
  | error d =>
    rw [hrun] at h
    cases h
  | ok r =>
    rw [hrun] at h
    obtain ⟨p, hopcode, hresult⟩ := exists_opcode_of_ok hrun
    obtain ⟨(d | f) | flow', t⟩ := r
    · cases h
    · cases h
    · cases h
      exact ⟨p.1, p.2, t, hopcode, hresult, rfl⟩

omit [Stage σ] in
theorem Thread.exists_bytes {t : Thread} {p : UInt16 × Cursor} {operands : Bytes} {pc : Nat}
    (hopcode : (t.cursorAt t.pc).opcode = .ok p) (hoperands : (t.cursorAt (t.pc + 2)).Passes operands (t.cursorAt pc)) :
    ∃ opcode : Bytes, opcode.length = 2 ∧ opcode ++ operands <+: t.script.code.drop t.pc ∧
      pc = t.pc + (opcode ++ operands).length := by
  obtain ⟨opcode, hlength, hpasses⟩ := exists_passes_of_opcode hopcode
  have hbehind : p.2.pos = t.pc + 2 := by
    rw [hpasses.pos_eq, hlength]
    rfl
  rw [Thread.cursorAt_of_passes hpasses, hbehind] at hpasses
  have hall := hpasses.append hoperands
  have hrest : t.script.codeFrom t.pc = (opcode ++ operands) ++ _ := hall.rest_eq
  rw [Script.codeFrom_eq_drop] at hrest
  exact ⟨opcode, hlength, ⟨_, hrest.symm⟩, hall.pos_eq⟩

theorem visits_codeEnd (budget : Nat) (h : thread.script.codeEnd ≤ thread.pc) :
    visits id budget thread world = [] := by
  cases budget with
  | zero => rfl
  | succ budget => exact if_pos h

theorem visits_next (budget : Nat) (h : ¬ thread.script.codeEnd ≤ thread.pc)
    (hnext : (step id thread world).value.ending = .went .next) :
    visits id (budget + 1) thread world = ⟨thread, world⟩ ::
      visits id budget (step id thread world).value.thread (step id thread world).value.world := by
  rw [visits, if_neg h]
  dsimp only
  rw [if_pos hnext]

theorem visits_last (budget : Nat) (h : ¬ thread.script.codeEnd ≤ thread.pc)
    (hlast : (step id thread world).value.ending ≠ .went .next) :
    visits id (budget + 1) thread world = [⟨thread, world⟩] := by
  rw [visits, if_neg h]
  dsimp only
  rw [if_neg hlast]

theorem head?_visits (h : (visits id budget thread world).head? = some v) : v = ⟨thread, world⟩ := by
  cases budget with
  | zero => cases h
  | succ budget =>
    rw [visits] at h
    split at h
    · cases h
    · cases h
      rfl

/-- At each visit the run has gone on from instruction to instruction, and it goes on from there. -/
structure Visit.Reached (v : Visit σ) (id : ThreadId) (n budget : Nat) (thread : Thread) (world : World σ) : Prop where
  lt : n < budget
  inside : ¬ v.thread.script.codeEnd ≤ v.thread.pc
  boundary : (runFor id n thread world).value = ⟨v.thread, v.world, n, 0, none⟩
  rest : (visits id budget thread world).drop n = visits id (budget - n) v.thread v.world
  left : (runFor id budget thread world).value.thread = (runFor id (budget - n) v.thread v.world).value.thread
  state_eq : v.thread.state = thread.state

theorem reached_of_visits (h : (visits id budget thread world)[n]? = some v) :
    v.Reached id n budget thread world := by
  induction n generalizing budget thread world with
  | zero =>
    have hv : v = ⟨thread, world⟩ := head?_visits (List.head?_eq_getElem?.trans h)
    subst hv
    cases budget with
    | zero => cases h
    | succ budget =>
      refine ⟨Nat.succ_pos budget, ?_, rfl, rfl, rfl, rfl⟩
      intro hend
      rw [visits_codeEnd _ hend] at h
      cases h
  | succ n ih =>
    cases budget with
    | zero => cases h
    | succ budget =>
      by_cases hend : thread.script.codeEnd ≤ thread.pc
      · rw [visits_codeEnd _ hend] at h
        cases h
      by_cases hnext : (step id thread world).value.ending = .went .next
      · rw [visits_next budget hend hnext, List.getElem?_cons_succ] at h
        obtain ⟨hlt, hinside, hboundary, hrest, hleft, hstate⟩ := ih h
        constructor
        · exact Nat.succ_lt_succ hlt
        · exact hinside
        · rw [runFor_next hend hnext, hboundary]
          rfl
        · rw [visits_next budget hend hnext, List.drop_succ_cons, hrest, Nat.succ_sub_succ]
        · rw [runFor_next hend hnext, Nat.succ_sub_succ]
          exact hleft
        · exact hstate.trans (state_step_next hnext)
      · rw [visits_last budget hend hnext] at h
        cases h

/-- What comes behind a visit starts where its instruction has come to. -/
theorem Visit.Reached.next (h : v.Reached id n budget thread world)
    (hnext : (visits id budget thread world)[n + 1]? = some v') :
    (v.outcome id).ending = .went .next ∧ v' = ⟨(v.outcome id).thread, (v.outcome id).world⟩ := by
  obtain ⟨rest, hrest⟩ : ∃ rest, budget - n = rest + 1 := ⟨budget - n - 1, by have := h.lt; omega⟩
  have hdrop : ((visits id budget thread world).drop n)[1]? = some v' := by
    rw [List.getElem?_drop]
    exact hnext
  rw [h.rest, hrest] at hdrop
  by_cases hgoes : (step id v.thread v.world).value.ending = .went .next
  · rw [visits_next rest h.inside hgoes, List.getElem?_cons_succ, ← List.head?_eq_getElem?] at hdrop
    exact ⟨hgoes, head?_visits hdrop⟩
  · rw [visits_last rest h.inside hgoes] at hdrop
    cases hdrop

theorem Visit.Reached.last (h : v.Reached id n budget thread world)
    (hlast : (visits id budget thread world)[n + 1]? = none) :
    (runFor id budget thread world).value.thread = (v.outcome id).thread ∨
      (runFor id budget thread world).value.thread = (v.outcome id).thread.terminate := by
  obtain ⟨rest, hrest⟩ : ∃ rest, budget - n = rest + 1 := ⟨budget - n - 1, by have := h.lt; omega⟩
  have hdrop : ((visits id budget thread world).drop n)[1]? = none := by
    rw [List.getElem?_drop]
    exact hlast
  rw [h.rest, hrest] at hdrop
  rw [h.left, hrest]
  by_cases hgoes : (step id v.thread v.world).value.ending = .went .next
  · rw [visits_next rest h.inside hgoes, List.getElem?_cons_succ] at hdrop
    rw [runFor_next h.inside hgoes]
    cases rest with
    | zero => exact .inl rfl
    | succ rest =>
      let t := (step id v.thread v.world).value.thread
      by_cases hend : t.script.codeEnd ≤ t.pc
      · exact .inr (congrArg TurnOutcome.thread (congrArg TurnOutcome.afterStep (runFor_codeEnd hend)))
      · rw [visits, if_neg hend] at hdrop
        cases hdrop
  · rw [runFor_last h.inside hgoes, StepOutcome.thread_last]
    exact .inl rfl

variable {delta : Single} {own : ThreadId} {ids before rest : List ThreadId} {threads : Arena Thread} {w : World σ}
  {counts : Nat × Nat}

/-- A turn in which a thread does not come to run leaves it as it is, but for its state. Otherwise the turn is a run. -/
theorem turn_cases (delta : Single) (id : ThreadId) (thread : Thread) (world : World σ) :
    (∃ state, (turn delta id thread world).value = ⟨{ thread with state }, world, 0, 0, none⟩ ∧
      turnVisits delta id thread world = []) ∨
    ∃ result, let budget := world.shared.options.instructionsPerTick.toNat
      let running : Thread := { thread with state := .running, result }
      (turn delta id thread world).value = (runFor id budget running world).value ∧
        turnVisits delta id thread world = visits id budget running world := by
  have hpolled := thread.polled_poll delta world.shared.globals (Stage.status world.stage)
  rw [turn_value, turnVisits]
  by_cases hpaused : thread.paused = true
  · rw [if_pos hpaused, if_pos hpaused]
    exact .inl ⟨thread.state, rfl, rfl⟩
  · rw [if_neg hpaused, if_neg hpaused]
    revert hpolled
    generalize thread.poll delta world.shared.globals (Stage.status world.stage) = r
    intro hpolled
    cases hpolled with
    | rests hlapse hstate => exact .inl ⟨_, rfl, rfl⟩
    | runs result hstate => exact .inr ⟨result, rfl, rfl⟩

theorem turnsVisits_skip (hlent : world.shared.threads.checkout id = none) :
    turnsVisits delta own (id :: ids) world = turnsVisits delta own ids world := by
  rw [turnsVisits, hlent]

theorem turnsVisits_cons (hlent : world.shared.threads.checkout id = some (thread, threads)) :
    turnsVisits delta own (id :: ids) world =
      (if id = own then turnVisits delta id thread (world.lending threads) else []) ++
        match (turn delta id thread (world.lending threads)).value.halt with
        | some _ => []
        | none => turnsVisits delta own ids ((turn delta id thread (world.lending threads)).value.back id) := by
  rw [turnsVisits, hlent]

theorem turnsVisits_of_not_mem (hown : own ∉ ids) (world : World σ) : turnsVisits delta own ids world = [] := by
  induction ids generalizing world with
  | nil => rfl
  | cons id ids ih =>
    simp only [List.mem_cons, not_or] at hown
    obtain ⟨hne, hrest⟩ := hown
    cases hlent : world.shared.threads.checkout id with
    | none =>
      rw [turnsVisits_skip hlent]
      exact ih hrest world
    | some p =>
      rw [turnsVisits_cons hlent, if_neg (Ne.symm hne), List.nil_append]
      split
      · rfl
      · exact ih hrest _

theorem turnsVisits_self (hlent : world.shared.threads.checkout own = some (thread, threads)) (hrest : own ∉ rest) :
    turnsVisits delta own (own :: rest) world = turnVisits delta own thread (world.lending threads) := by
  rw [turnsVisits_cons hlent, if_pos rfl]
  split
  · exact List.append_nil _
  · rw [turnsVisits_of_not_mem hrest, List.append_nil]

theorem exists_rest_of_turns (hlent : world.shared.threads.checkout id = some (thread, threads))
    (h : (turns delta (id :: ids) world).value = ⟨w, .ok counts⟩) :
    (turn delta id thread (world.lending threads)).value.halt = none ∧
      ∃ counts', (turns delta ids ((turn delta id thread (world.lending threads)).value.back id)).value =
        ⟨w, .ok counts'⟩ := by
  rw [turns_cons_of_checkout delta ids hlent] at h
  revert h
  generalize (turn delta id thread (world.lending threads)).value = o
  intro h
  dsimp only at h
  cases hhalt : o.halt with
  | some halt =>
    rw [hhalt] at h
    cases h
  | none =>
    rw [hhalt] at h
    generalize (turns delta ids (o.back id)).value = rest at h ⊢
    obtain ⟨w', halt | counts'⟩ := rest
    · cases h
    · cases h
      exact ⟨rfl, counts', rfl⟩

theorem turnsVisits_append (hown : own ∉ before) (hbefore : (turns delta before world).value = ⟨w, .ok counts⟩)
    (rest : List ThreadId) : turnsVisits delta own (before ++ rest) world = turnsVisits delta own rest w := by
  induction before generalizing world counts with
  | nil =>
    cases hbefore
    rfl
  | cons id before ih =>
    simp only [List.mem_cons, not_or] at hown
    obtain ⟨hne, hown⟩ := hown
    cases hlent : world.shared.threads.checkout id with
    | none =>
      rw [turns_cons_value, hlent] at hbefore
      rw [List.cons_append, turnsVisits_skip hlent]
      exact ih hown hbefore
    | some p =>
      obtain ⟨hhalt, counts', hrest⟩ := exists_rest_of_turns hlent hbefore
      rw [List.cons_append, turnsVisits_cons hlent, if_neg (Ne.symm hne), List.nil_append, hhalt]
      exact ih hown hrest

theorem exists_turn_of_turnsVisits (hv : v ∈ turnsVisits delta own ids world) :
    ∃ before rest w counts thread threads, ids = before ++ own :: rest ∧
      (turns delta before world).value = ⟨w, .ok counts⟩ ∧ w.shared.threads.checkout own = some (thread, threads) := by
  induction ids generalizing world with
  | nil => cases hv
  | cons id ids ih =>
    cases hlent : world.shared.threads.checkout id with
    | none =>
      rw [turnsVisits_skip hlent] at hv
      obtain ⟨before, rest, w, counts, thread, threads, rfl, hbefore, hown⟩ := ih hv
      refine ⟨id :: before, rest, w, counts, thread, threads, rfl, ?_, hown⟩
      rw [turns_cons_value, hlent]
      exact hbefore
    | some p =>
      by_cases hid : id = own
      · subst hid
        exact ⟨[], ids, world, (0, 0), p.1, p.2, rfl, rfl, hlent⟩
      · rw [turnsVisits_cons hlent, if_neg hid, List.nil_append] at hv
        cases hhalt : (turn delta id p.1 (world.lending p.2)).value.halt with
        | some halt =>
          rw [hhalt] at hv
          cases hv
        | none =>
          rw [hhalt] at hv
          obtain ⟨before, rest, w, counts, thread, threads, rfl, hbefore, hown⟩ := ih hv
          let o := (turn delta id p.1 (world.lending p.2)).value
          refine ⟨id :: before, rest, w, (o.executed + counts.1, o.faulted + counts.2), thread, threads, rfl, ?_, hown⟩
          rw [turns_cons_of_checkout delta before hlent]
          simp only [hhalt, hbefore]
          rfl

end

namespace Machine

variable [Stage σ] {m : Machine} {delta : Single} {stage : σ} {id : ThreadId} {thread : Thread} {world : World σ}
  {o : TurnOutcome σ} {v v' : Visit σ} {wanted n : Nat}

/-- The instructions that a thread executes in a tick. -/
def visits (m : Machine) (delta : Single) (stage : σ) (id : ThreadId) : List (Visit σ) :=
  turnsVisits delta id m.order ⟨m.shared, stage⟩

theorem Takes.exists_visits (ho : m.Takes delta stage id world thread o) (h : m.Pending wanted m.shared.requests) :
    ∃ threads, world.shared.threads.checkout id = some (thread, threads) ∧
      o = (turn delta id thread (world.lending threads)).value ∧
      m.visits delta stage id = turnVisits delta id thread (world.lending threads) := by
  obtain ⟨horder, hbefore, hlent⟩ := ho
  obtain ⟨hfirst, hlast⟩ := h.not_mem_of_order horder
  refine ⟨_, hlent, rfl, ?_⟩
  rw [visits, horder, turnsVisits_append hfirst hbefore, turnsVisits_self hlent hlast]

theorem exists_takes_of_visits (hv : v ∈ m.visits delta stage id) : ∃ world thread o,
    m.Takes delta stage id world thread o := by
  obtain ⟨before, rest, w, counts, thread, threads, horder, hbefore, hlent⟩ := exists_turn_of_turnsVisits hv
  exact ⟨w, thread, _, .intro horder hbefore hlent⟩

/-- The run of a thread in a tick, from how its turn finds the thread to how it leaves it. -/
structure Runs (m : Machine) (delta : Single) (stage : σ) (id : ThreadId) (world : World σ) (found : Thread)
    (threads : Arena Thread) (thread : Thread) (o : TurnOutcome σ) : Prop where
  takes : m.Takes delta stage id world found o
  lent : world.shared.threads.checkout id = some (found, threads)
  unpaused : found.paused = false
  polled : found.poll delta world.shared.globals (Stage.status world.stage) = (true, thread)
  running : thread.state = .running
  visits_eq : m.visits delta stage id =
    NovelEngine.visits id world.shared.options.instructionsPerTick.toNat thread (world.lending threads)
  outcome_eq : o = (runFor id world.shared.options.instructionsPerTick.toNat thread (world.lending threads)).value

/-- A thread that executes something in a tick has a run. -/
theorem Pending.exists_runs (h : m.Pending wanted m.shared.requests) (hv : v ∈ m.visits delta stage id) :
    ∃ world found threads thread o, m.Runs delta stage id world found threads thread o := by
  obtain ⟨world, found, o, ho⟩ := exists_takes_of_visits hv
  obtain ⟨threads, hlent, -, hvisits⟩ := ho.exists_visits h
  have hturn : m.visits delta stage id = if found.paused then [] else
      let r := found.poll delta world.shared.globals (Stage.status world.stage)
      if r.1 then NovelEngine.visits id world.shared.options.instructionsPerTick.toNat r.2 (world.lending threads)
      else [] := hvisits
  cases ho.fares h with
  | rests hlent' hlapse hnone =>
    have hblocked := (ho.exists_boundary_iff h).not.mp (not_exists.mpr hnone)
    rw [hturn] at hv
    split at hv
    · cases hv
    · rename_i hpaused
      dsimp only at hv
      split at hv
      · rename_i hpolled
        exact absurd ⟨by simpa using hpaused, hpolled⟩ hblocked
      · cases hv
  | @runs result threads' hlent' hpaused hpolled hboundary =>
    cases hlent.symm.trans hlent'
    let running : Thread := { found with state := .running, result }
    refine ⟨world, found, threads, running, _, ho, hlent, hpaused, hpolled, rfl, ?_, rfl⟩
    rw [hturn, if_neg (by simp [hpaused]), hpolled]
    rfl

theorem Pending.exists_reached (h : m.Pending wanted m.shared.requests) (hv : (m.visits delta stage id)[n]? = some v) :
    ∃ world found threads thread o, m.Runs delta stage id world found threads thread o ∧
      v.Reached id n world.shared.options.instructionsPerTick.toNat thread (world.lending threads) := by
  obtain ⟨world, found, threads, thread, o, hruns⟩ := h.exists_runs (List.mem_of_getElem? hv)
  rw [hruns.visits_eq] at hv
  exact ⟨world, found, threads, thread, o, hruns, reached_of_visits hv⟩

theorem Pending.state_of_visits (h : m.Pending wanted m.shared.requests) (hv : (m.visits delta stage id)[n]? = some v) :
    v.thread.state = .running := by
  obtain ⟨world, found, threads, thread, o, hruns, hreached⟩ := h.exists_reached hv
  exact hreached.state_eq.trans hruns.running

theorem Pending.next_of_visits (h : m.Pending wanted m.shared.requests) (hv : (m.visits delta stage id)[n]? = some v)
    (hv' : (m.visits delta stage id)[n + 1]? = some v') :
    (v.outcome id).ending = .went .next ∧ v' = ⟨(v.outcome id).thread, (v.outcome id).world⟩ := by
  obtain ⟨world, found, threads, thread, o, hruns, hreached⟩ := h.exists_reached hv
  rw [hruns.visits_eq] at hv'
  exact hreached.next hv'

end Machine
end NovelEngine
