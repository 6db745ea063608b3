import NovelEngine.Proofs.Machine.Faulting
import NovelEngine.Proofs.Machine.Idling

/-!
# Waiting for a slot

A wait lets its thread through at once if the slot is not loading, and otherwise at the first turn that finds the slot
so and the thread not paused. Either way the thread goes on right behind the wait, with the code of the status that has
let it through as its result. In between it executes nothing and keeps the result that it had.
-/
namespace NovelEngine

variable {σ : Type} [Stage σ]

theorem Instruction.exists_operands_of_loadWait {opcode : UInt16} {t t' : Turn σ} {flow : Flow}
    (h : (loadWait.run opcode).result t = (.ok flow, t')) :
    ∃ (code : UInt8) (index : Expr) (pc : Nat),
      (t.thread.cursorAt t.pc).Passes ([code] ++ (index.encode ++ [0])) (t.thread.cursorAt pc) ∧
      ∀ category, Category.ofCode? code = some category →
        let slot : SlotKey := ⟨category, (index.denote t.scope).1.toUInt32⟩
        let behind := t.moved pc (index.denote t.scope).2
        if Stage.status t.world.stage slot = .loading then flow = .wait (.resource slot) ∧ t' = behind
        else flow = .next ∧ t' = { behind with thread.result := (Stage.status t.world.stage slot).scriptCode } := by
  change (Exec.readU8 >>= _).result t = _ at h
  rw [Exec.result_bind] at h
  cases hr : (Exec.readU8 : Exec σ UInt8).result t with
  | mk r t₁ =>
    rw [hr] at h
    cases r with
    | error d => cases h
    | ok code =>
      obtain ⟨hcode, ht₁⟩ := Exec.passes_readU8 hr
      dsimp only at h
      rw [Exec.result_bind] at h
      cases hr' : (Exec.expr : Exec σ Int32).result t₁ with
      | mk r' t₂ =>
        rw [hr'] at h
        cases r' with
        | error d => cases h
        | ok value =>
          obtain ⟨index, ⟨hindex, ht₂⟩, hvalue⟩ := Exec.exists_denote_of_expr hr'
          rw [ht₁] at hindex hvalue ht₂
          refine ⟨code, index, t₂.pc, hcode.append hindex, ?_⟩
          intro category hcategory slot behind
          have hslot : (⟨category, value.toUInt32⟩ : SlotKey) = slot := by rw [hvalue]; rfl
          have hbehind : t₂ = behind := ht₂
          dsimp only at h
          rw [hcategory] at h
          replace h : (if (Stage.status t₂.world.stage ⟨category, value.toUInt32⟩).isSettled then
              Exec.setResult (Stage.status t₂.world.stage ⟨category, value.toUInt32⟩).scriptCode >>= fun _ => pure .next
            else pure (.wait (.resource ⟨category, value.toUInt32⟩)) : Exec σ Flow).result t₂ = (.ok flow, t') := h
          rw [hslot, hbehind] at h
          have hstage : behind.world.stage = t.world.stage := rfl
          rw [hstage] at h
          by_cases hloading : Stage.status t.world.stage slot = .loading
          · rw [if_neg (by simp [LoadStatus.isSettled, hloading])] at h
            rw [if_pos hloading]
            exact ⟨(Except.ok.inj (congrArg Prod.fst h)).symm, (congrArg Prod.snd h).symm⟩
          · rw [if_pos (by simpa [LoadStatus.isSettled] using hloading)] at h
            rw [if_neg hloading]
            exact ⟨(Except.ok.inj (congrArg Prod.fst h)).symm, (congrArg Prod.snd h).symm⟩

/-- What a wait of a thread comes to: it names a slot, and `behind` is the thread when its operands are read. A slot
that is not loading lets the thread through at once, one that is loading makes it wait. -/
structure Visit.Awaits (v : Visit σ) (id : ThreadId) (slot : SlotKey) (behind : Thread) : Prop where
  operands : ∃ (opcode : Bytes) (code : UInt8) (index : Expr), opcode.length = 2 ∧
    opcode ++ ([code] ++ (index.encode ++ [0])) <+: v.thread.script.code.drop v.thread.pc ∧
    Category.ofCode? code = some slot.category ∧
    let scope : Scope := ⟨v.world.shared.globals, v.thread.locals, v.thread.result⟩
    slot.index = (index.denote scope).1.toUInt32 ∧
    behind = { v.thread with
      pc := v.thread.pc + (opcode ++ ([code] ++ (index.encode ++ [0]))).length
      locals := (index.denote scope).2.locals }
  atOnce : Stage.status v.world.stage slot ≠ .loading → (v.outcome id).ending = .went .next ∧
    (v.outcome id).thread = { behind with result := (Stage.status v.world.stage slot).scriptCode }
  waits : Stage.status v.world.stage slot = .loading →
    (v.outcome id).ending = .went (.wait (.resource slot)) ∧
    (v.outcome id).thread = { behind with state := .waiting (.resource slot) }

theorem Visit.Awaits.state_eq {v : Visit σ} {id : ThreadId} {slot : SlotKey} {behind : Thread}
    (h : v.Awaits id slot behind) : behind.state = v.thread.state := by
  obtain ⟨-, -, -, -, -, -, -, rfl⟩ := h.operands
  rfl

def Visit.category? (v : Visit σ) : Option Category :=
  (v.thread.script.code[v.thread.pc + 2]?).bind Category.ofCode?

/-- A wait for a slot of a known category that does not fail. -/
structure Visit.IsWait (v : Visit σ) (id : ThreadId) : Prop where
  instruction : instructionAt v.thread v.world = .loadWait
  known : v.category?.isSome = true
  sound : ∀ halt, (v.outcome id).ending ≠ .halted halt

theorem Visit.IsWait.exists_awaits {v : Visit σ} {id : ThreadId} (h : v.IsWait id) :
    ∃ slot behind, v.Awaits id slot behind := by
  obtain ⟨hat, hknown, hsound⟩ := h
  obtain ⟨flow, hwent⟩ : ∃ flow, (v.outcome id).ending = .went flow := by
    cases hending : (v.outcome id).ending with
    | went flow => exact ⟨flow, rfl⟩
    | halted halt => exact absurd hending (hsound halt)
    | faulted =>
      have hfaults : (v.outcome id).Faults v.thread v.world := faults_step hending
      simpa [hat] using hfaults.instruction
  obtain ⟨opcode, rest, t, hopcode, hrun, houtcome⟩ := v.exists_run hwent
  rw [hat] at hrun
  obtain ⟨code, index, pc, hoperands, hdecides⟩ := Instruction.exists_operands_of_loadWait hrun
  obtain ⟨bytes, hlength, hprefix, hpc⟩ := Thread.exists_bytes hopcode hoperands
  have hcode : v.thread.script.code[v.thread.pc + 2]? = some code := by
    obtain ⟨tail, htail⟩ := hprefix
    rw [← List.getElem?_drop, ← htail]
    simp [hlength]
  obtain ⟨category, hcategory⟩ : ∃ category, Category.ofCode? code = some category := by
    rw [category?, hcode] at hknown
    exact Option.isSome_iff_exists.mp hknown
  have hdecided := hdecides category hcategory
  let scope : Scope := ⟨v.world.shared.globals, v.thread.locals, v.thread.result⟩
  let slot : SlotKey := ⟨category, (index.denote scope).1.toUInt32⟩
  let behind : Thread := { v.thread with pc, locals := (index.denote scope).2.locals }
  refine ⟨slot, behind, ⟨bytes, code, index, hlength, hprefix, hcategory, rfl, ?_⟩, ?_, ?_⟩
  · rw [← hpc]
  · intro hsettled
    rw [if_neg (by exact hsettled)] at hdecided
    obtain ⟨rfl, rfl⟩ := hdecided
    rw [houtcome]
    exact ⟨rfl, rfl⟩
  · intro hloading
    rw [if_pos (by exact hloading)] at hdecided
    obtain ⟨rfl, rfl⟩ := hdecided
    rw [houtcome]
    exact ⟨rfl, rfl⟩

theorem LoadStatus.scriptCode_ne_one {status : LoadStatus} (h : status ≠ .loading) : status.scriptCode ≠ 1 := by
  cases status with
  | loading => exact absurd rfl h
  | unloaded | loaded | failed => decide

theorem Thread.poll_resource {t : Thread} {slot : SlotKey} (h : t.state = .waiting (.resource slot)) (delta : Single)
    (globals : Globals) (status : SlotKey → LoadStatus) : t.poll delta globals status =
      if status slot = .loading then (false, t)
      else (true, { t with state := .running, result := (status slot).scriptCode }) := by
  unfold poll
  rw [h]
  by_cases hloading : status slot = .loading
  · simp [hloading, LoadStatus.isSettled]
  · simp [hloading, LoadStatus.isSettled]

namespace Machine

variable {options : MachineOptions} {library : Option ScriptLibrary} {m m' : Machine} {delta : Single} {stage : σ}
  {id : ThreadId} {n : Nat} {v v' : Visit σ} {t : Thread} {slot : SlotKey} {behind : Thread}

theorem Reachable.next_of_awaits (h : Reachable options library m) (hv : (m.visits delta stage id)[n]? = some v)
    (hawaits : v.Awaits id slot behind) (hv' : (m.visits delta stage id)[n + 1]? = some v') :
    Stage.status v.world.stage slot ≠ .loading ∧
      v'.thread = { behind with result := (Stage.status v.world.stage slot).scriptCode } := by
  obtain ⟨hending, rfl⟩ := h.pending.next_of_visits hv hv'
  have hsettled : Stage.status v.world.stage slot ≠ .loading := by
    intro hloading
    cases (hawaits.waits hloading).1.symm.trans hending
  exact ⟨hsettled, (hawaits.atOnce hsettled).2⟩

theorem Reachable.last_of_awaits (h : Reachable options library m) (hv : (m.visits delta stage id)[n]? = some v)
    (hawaits : v.Awaits id slot behind) (hloading : Stage.status v.world.stage slot = .loading) :
    (m.visits delta stage id)[n + 1]? = none := by
  refine Option.eq_none_iff_forall_ne_some.mpr ?_
  intro v' hv'
  exact (h.next_of_awaits hv hawaits hv').1 hloading

/-- Until the thread executes something, it is as the wait has left it, or it has ended. -/
theorem Reachable.exists_of_awaits (h : Reachable options library m) (hv : (m.visits delta stage id)[n]? = some v)
    (hawaits : v.Awaits id slot behind) (hlast : (m.visits delta stage id)[n + 1]? = none)
    (hidles : Idles id (m.tick delta stage).value.machine m') : ∃ t, m'.thread? id = some t ∧
      (t.state = .terminated ∨ t.core = (v.outcome id).thread.core ∧ t.state = (v.outcome id).thread.state) := by
  have hstate : (v.outcome id).thread.state = .running ∨ (v.outcome id).thread.state = .waiting (.resource slot) := by
    by_cases hloading : Stage.status v.world.stage slot = .loading
    · rw [(hawaits.waits hloading).2]
      exact .inr rfl
    · rw [(hawaits.atOnce hloading).2]
      exact .inl (hawaits.state_eq.trans (h.pending.state_of_visits hv))
  obtain ⟨t, ht, hcases⟩ := h.exists_of_last hv hlast (by rcases hstate with hs | hs <;> simp [hs]) hidles
  refine ⟨t, ht, hcases.imp_right ?_⟩
  rintro ⟨hcore, hlapse⟩
  refine ⟨hcore, ?_⟩
  generalize (v.outcome id).thread.state = s at hstate hlapse ⊢
  generalize t.state = s' at hlapse ⊢
  cases hlapse with
  | refl => rfl
  | timer remaining later => rcases hstate with hs | hs <;> cases hs

/-- At its turns a waiting thread executes nothing exactly if it is paused, the slot is loading, or no code is left. -/
theorem Reachable.turn_of_awaits {τ : Type} [Stage τ] {delta' : Single} {stage' : τ} {world : World τ}
    {o : TurnOutcome τ} (h : Reachable options library m) (hv : (m.visits delta stage id)[n]? = some v)
    (hawaits : v.Awaits id slot behind) (hloading : Stage.status v.world.stage slot = .loading)
    (hidles : Idles id (m.tick delta stage).value.machine m') (ho : m'.Takes delta' stage' id world t o)
    (hunended : t.state ≠ .terminated) :
    (m'.visits delta' stage' id = [] ↔ t.paused = true ∨ Stage.status world.stage slot = .loading ∨
      behind.script.codeEnd ≤ behind.pc) ∧
    (t.paused = true ∨ Stage.status world.stage slot = .loading → o.thread = t) := by
  have hm' : Reachable options library m' := hidles.reachable (h.tick delta stage)
  have hbudget : m'.budget ≠ 0 := by
    rw [hidles.budget_eq (h.tick delta stage), h.pending.budget_tick]
    exact h.budget_of_visits hv
  obtain ⟨t', ht', hcases⟩ := h.exists_of_awaits hv hawaits (h.last_of_awaits hv hawaits hloading) hidles
  cases ht'.symm.trans (ho.thread? hm'.pending)
  obtain ⟨hcore, hstate⟩ := hcases.resolve_left hunended
  rw [(hawaits.waits hloading).2] at hcore hstate
  have hscript : t.core.script = behind.core.script := congrArg Thread.script hcore
  have hpc : t.core.pc = behind.core.pc := congrArg Thread.pc hcore
  have hend : t.script.codeEnd ≤ t.pc ↔ behind.script.codeEnd ≤ behind.pc :=
    iff_of_eq (congrArg₂ (fun (script : Script) pc => script.codeEnd ≤ pc) hscript hpc)
  constructor
  · rw [ho.visits_eq_nil_iff hm'.pending hbudget, Thread.poll_resource hstate, hend]
    by_cases hstill : Stage.status world.stage slot = .loading
    · simp [hstill]
    · simp [hstill]
  · rintro (hpaused | hstill)
    · exact (ho.blocked hm' (.paused hpaused)).1
    · exact (ho.blocked hm' (.resource hstate hstill)).1

/-- The status that lets the thread through: the one at the wait, unless it makes the thread wait, and then the one that
the slot has when the thread goes on. -/
def passingStatus (slot : SlotKey) (first : σ) {τ : Type} [Stage τ] (last : τ) : LoadStatus :=
  if Stage.status first slot = .loading then Stage.status last slot else Stage.status first slot

theorem Reachable.later_of_awaits {τ : Type} [Stage τ] {delta' : Single} {stage' : τ} {v' : Visit τ}
    (h : Reachable options library m) (hv : (m.visits delta stage id)[n]? = some v)
    (hawaits : v.Awaits id slot behind) (hlast : (m.visits delta stage id)[n + 1]? = none)
    (hidles : Idles id (m.tick delta stage).value.machine m')
    (hv' : (m'.visits delta' stage' id).head? = some v') :
    passingStatus slot v.world.stage v'.world.stage ≠ .loading ∧
      v'.thread.core =
        Thread.core { behind with result := (passingStatus slot v.world.stage v'.world.stage).scriptCode } := by
  have hm' : Reachable options library m' := hidles.reachable (h.tick delta stage)
  obtain ⟨t, ht, hcases⟩ := h.exists_of_awaits hv hawaits hlast hidles
  obtain ⟨world, found, threads, thread, o, hruns⟩ := hm'.pending.exists_runs (List.mem_of_mem_head? hv')
  obtain rfl := hruns.head?_visits hv'
  cases ht.symm.trans (hruns.takes.thread? hm'.pending)
  have hpolled := hruns.polled
  have hunended : t.state ≠ .terminated := by
    intro hended
    rw [Thread.poll, hended] at hpolled
    cases hpolled
  obtain ⟨hcore, hstate⟩ := hcases.resolve_left hunended
  rw [passingStatus]
  by_cases hloading : Stage.status v.world.stage slot = .loading
  · rw [if_pos hloading]
    rw [(hawaits.waits hloading).2] at hcore hstate
    rw [Thread.poll_resource hstate] at hpolled
    by_cases hstill : Stage.status world.stage slot = .loading
    · rw [if_pos hstill] at hpolled
      cases hpolled
    · rw [if_neg hstill] at hpolled
      obtain rfl := (congrArg Prod.snd hpolled).symm
      exact ⟨hstill, congrArg (fun t : Thread => { t with result := (Stage.status world.stage slot).scriptCode }) hcore⟩
  · rw [if_neg hloading]
    rw [(hawaits.atOnce hloading).2] at hcore hstate
    have hrunning : t.state = .running :=
      hstate.trans (hawaits.state_eq.trans (h.pending.state_of_visits hv))
    rw [Thread.poll, hrunning] at hpolled
    obtain rfl : t = thread := congrArg Prod.snd hpolled
    exact ⟨hloading, hcore⟩

/-- How a thread fares that waits for a slot, when the wait is the instruction `n` of its turn. -/
structure LetsThrough (m : Machine) (delta : Single) (stage : σ) (id : ThreadId) (n : Nat) (v : Visit σ)
    (slot : SlotKey) (behind : Thread) : Prop extends v.Awaits id slot behind where
  /-- A slot that is loading ends the turn. -/
  ends : Stage.status v.world.stage slot = .loading → (m.visits delta stage id)[n + 1]? = none
  sameTurn : ∀ v', (m.visits delta stage id)[n + 1]? = some v' → Stage.status v.world.stage slot ≠ .loading ∧
    v'.thread = { behind with result := (Stage.status v.world.stage slot).scriptCode }
  /-- Until the thread executes something, it is as the wait has left it, or it has ended. -/
  idle : (m.visits delta stage id)[n + 1]? = none → ∀ m', Idles id (m.tick delta stage).value.machine m' →
    ∃ t, m'.thread? id = some t ∧ (t.state = .terminated ∨
      t.core = (v.outcome id).thread.core ∧ t.state = (v.outcome id).thread.state)
  /-- At its turns a waiting thread executes nothing exactly if it is paused, the slot is loading, or no code is left. In
  the first two cases the turn does not change it. -/
  turns : Stage.status v.world.stage slot = .loading → ∀ m', Idles id (m.tick delta stage).value.machine m' →
    ∀ (τ : Type) [Stage τ] (delta' : Single) (stage' : τ) (world : World τ) (t : Thread) (o : TurnOutcome τ),
      m'.Takes delta' stage' id world t o → t.state ≠ .terminated →
        (m'.visits delta' stage' id = [] ↔ t.paused = true ∨ Stage.status world.stage slot = .loading ∨
          behind.script.codeEnd ≤ behind.pc) ∧
        (t.paused = true ∨ Stage.status world.stage slot = .loading → o.thread = t)
  laterTurn : (m.visits delta stage id)[n + 1]? = none → ∀ m', Idles id (m.tick delta stage).value.machine m' →
    ∀ (τ : Type) [Stage τ] (delta' : Single) (stage' : τ) (v' : Visit τ),
      (m'.visits delta' stage' id).head? = some v' →
        passingStatus slot v.world.stage v'.world.stage ≠ .loading ∧
        v'.thread.core =
          Thread.core { behind with result := (passingStatus slot v.world.stage v'.world.stage).scriptCode }
  code_ne : ∀ status : LoadStatus, status ≠ .loading → status.scriptCode ≠ 1

theorem Reachable.exists_letsThrough (h : Reachable options library m)
    (hv : (m.visits delta stage id)[n]? = some v) (hwait : v.IsWait id) :
    ∃ slot behind, m.LetsThrough delta stage id n v slot behind := by
  obtain ⟨slot, behind, hawaits⟩ := hwait.exists_awaits
  refine ⟨slot, behind, hawaits, ?_, ?_, ?_, ?_, ?_, ?_⟩
  · exact h.last_of_awaits hv hawaits
  · intro v' hv'
    exact h.next_of_awaits hv hawaits hv'
  · intro hlast m' hidles
    exact h.exists_of_awaits hv hawaits hlast hidles
  · intro hloading m' hidles τ _ delta' stage' world t o ho hunended
    exact h.turn_of_awaits hv hawaits hloading hidles ho hunended
  · intro hlast m' hidles τ _ delta' stage' v' hv'
    exact h.later_of_awaits hv hawaits hlast hidles hv'
  · intro status hsettled
    exact status.scriptCode_ne_one hsettled

/-- A thread waits for a background that is replaced before it has come, and finds that the other one has failed. -/
theorem Reachable.exists_letsThrough_replaced :
    let script := Script.build 1 [1, 0, 0x85, 0, 1, 2, 1, 0x80, 0, 0, 7, 0x2B, 0x20, 0, 0, 0, 0, 0] [0] []
    let start := (Machine.create {} none).value
    let loaded := (start.putScript 0 script).getD start
    let m := ((loaded.spawn 0 0).toOption.map Prod.snd).getD loaded
    let after := (m.tick Single.zero Recorder.empty).value
    let replaced := after.stage.load .background 6
    let later := (after.machine.tick Single.zero replaced).value.machine
    let failed := (replaced.complete .background 2 .failed).2
    Reachable {} none m ∧ (∃ v, (m.visits Single.zero Recorder.empty ⟨1, 0⟩)[1]? = some v ∧ v.IsWait ⟨1, 0⟩ ∧
        ∃ slot behind, m.LetsThrough Single.zero Recorder.empty ⟨1, 0⟩ 1 v slot behind) ∧
      Idles ⟨1, 0⟩ after.machine later ∧
      (later.visits Single.zero failed ⟨1, 0⟩).head?.map (fun v => (v.thread.pc, v.thread.result)) = some (25, 3) ∧
      (later.tick Single.zero failed).value.machine.shared.globals.numbers[0] = 3 := by
  intro script start loaded m after replaced later failed
  have hloaded : Reachable {} none loaded := .putScript 0 script .create rfl
  have hm : Reachable {} none m := .spawn 0 0 ⟨1, 0⟩ hloaded rfl
  obtain ⟨v, hv⟩ := Option.isSome_iff_exists.mp
    (show ((m.visits Single.zero Recorder.empty ⟨1, 0⟩)[1]?).isSome = true by decide +kernel)
  have hfound : ((m.visits Single.zero Recorder.empty ⟨1, 0⟩)[1]?).map (fun v =>
      (instructionAt v.thread v.world, v.category?, (v.outcome ⟨1, 0⟩).ending)) =
        some (.loadWait, some .background, .went (.wait (.resource .background))) := by decide +kernel
  rw [hv, Option.map_some, Option.some_inj, Prod.mk.injEq, Prod.mk.injEq] at hfound
  obtain ⟨hat, hknown, hending⟩ := hfound
  have hwait : v.IsWait ⟨1, 0⟩ := by
    refine ⟨hat, by rw [hknown]; rfl, ?_⟩
    intro halt
    rw [hending]
    exact StepEnd.noConfusion
  have hidles : Idles ⟨1, 0⟩ after.machine later :=
    .tick Single.zero replaced (.refl (by decide +kernel)) (List.isEmpty_iff.mp (by decide +kernel)) (by decide +kernel)
  exact ⟨hm, ⟨v, hv, hwait, hm.exists_letsThrough hv hwait⟩, hidles, by decide +kernel, by decide +kernel⟩

end Machine
end NovelEngine
