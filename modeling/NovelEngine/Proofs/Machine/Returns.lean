import NovelEngine.Proofs.Machine.Faulting
import NovelEngine.Proofs.Machine.Visits
import NovelEngine.Proofs.Thread.Nesting

/-!
# What an instruction does to the call stack

A call that goes on stores the position that it returns to, and a return goes to the position stored last. A call faults
if there is no room for a frame, and a return if there is no frame. No other instruction touches the frames.
-/
namespace NovelEngine

def Fault.ofCalls : Fault → Bool
  | .callStackOverflow _ | .callStackUnderflow => true
  | .threadPoolExhausted _ | .noScript _ | .noLabel _ _ => false

theorem Shared.ofCalls_of_spawn {s : Shared} {buffer : Int} {label : Int32} {f : Fault}
    (h : s.spawn buffer label = .error f) : f.ofCalls = false := by
  unfold Shared.spawn at h
  split at h
  · cases h
    rfl
  · split at h
    · cases h
      rfl
    · split at h
      · cases h
        rfl
      · cases h

variable {σ α β : Type}

namespace Exec

variable {t t' : Turn σ}

/-- How a call can end. It has its target before it looks for room, and room before it looks for its label. -/
inductive Calls (t : Turn σ) : Except Failure Flow × Turn σ → Prop
  | unread {d : Defect} {t' : Turn σ} (htarget : (callPosition.result t).1 = .error (.defect d)) :
    Calls t (.error (.defect d), t')
  | overflow {target : Nat} {t' : Turn σ} (htarget : (callPosition.result t).1 = .ok target)
    (hfull : callStackDepth ≤ t.thread.calls.depth) (hcalls : t'.thread.calls = t.thread.calls) :
    Calls t (.error (.fault (.callStackOverflow callStackDepth)), t')
  | missed {d : Defect} {t' : Turn σ} (hroom : t.thread.calls.depth < callStackDepth) :
    Calls t (.error (.defect d), t')
  | entered {target : Nat} {t' : Turn σ} (htarget : (callPosition.result t).1 = .ok target)
    (hroom : t.thread.calls.depth < callStackDepth)
    (hcalls : t'.thread.calls = ⟨UInt32.ofNat target :: t.thread.calls.frames⟩) : Calls t (.ok .next, t')

/-- How a return can end. -/
inductive Returns (t : Turn σ) : Except Failure Flow × Turn σ → Prop
  | underflow (hempty : t.thread.calls.frames = []) : Returns t (.error (.fault .callStackUnderflow), t)
  | back {frame : UInt32} {frames : List UInt32} (hframes : t.thread.calls.frames = frame :: frames) :
    Returns t (.ok .next, { t with thread.calls := ⟨frames⟩, pc := frame.toNat })

theorem calls_enter {target : Nat} {label : Int32} {t₀ : Turn σ} (htarget : (callPosition.result t₀).1 = .ok target)
    (hcalls : t.thread.calls = t₀.thread.calls) : Calls t₀ ((enter target label).result t) := by
  rw [result_enter, hcalls, CallStack.push]
  by_cases hroom : t₀.thread.calls.depth < callStackDepth
  · rw [if_pos hroom]
    dsimp only
    cases t.thread.script.label label with
    | error d => exact .missed hroom
    | ok pos => exact .entered htarget hroom rfl
  · rw [if_neg hroom]
    exact .overflow htarget (Nat.le_of_not_lt hroom) hcalls

section

variable [Stage σ]

theorem calls_run (opcode : UInt16) (t : Turn σ) : Calls t ((Instruction.call.run opcode).result t) := by
  have hwalks := Probe.expr.walks t
  have hposition : (callPosition.result t) = (expr >>= fun _ => returnPosition : Exec σ Nat).result t := rfl
  rw [result_bind] at hposition
  rw [result_call, result_bind]
  cases hlabel : expr.result t with
  | mk r t₁ =>
    rw [hlabel] at hwalks hposition
    cases r with
    | error e =>
      cases e with
      | defect d => exact .unread (congrArg Prod.fst hposition)
      | fault f => exact (Probe.expr.faultless t f (congrArg Prod.fst hlabel)).elim
    | ok label =>
      dsimp only at hposition ⊢
      have hcalls := (hwalks.trans (walks_returnPosition t₁)).calls_eq
      rw [result_bind]
      cases htarget : returnPosition.result t₁ with
      | mk r t₂ =>
        rw [htarget] at hcalls hposition
        cases r with
        | error e =>
          cases e with
          | defect d => exact .unread (congrArg Prod.fst hposition)
          | fault f => exact (composed_returnPosition.faultless t₁ f (congrArg Prod.fst htarget)).elim
        | ok target => exact calls_enter (congrArg Prod.fst hposition) hcalls

theorem meets_run (opcode : UInt16) (i : Instruction) (hcall : i ≠ .call) (hret : i ≠ .ret) :
    Meets (fun f => f.ofCalls = false) (i.run opcode : Exec σ Flow) := by
  by_cases hcreate : i = .threadCreate
  · subst hcreate
    refine Probe.expr.faultless.meets.bind fun buffer => Probe.expr.faultless.meets.bind fun label t f hf => ?_
    replace hf : ((create buffer label).result t).1 = .error (.fault f) := hf
    rw [result_create] at hf
    cases hspawn : t.world.shared.spawn buffer.toInt label with
    | ok p =>
      rw [hspawn] at hf
      cases hf
    | error f' =>
      rw [hspawn] at hf
      cases hf
      exact Shared.ofCalls_of_spawn hspawn
  · exact (faultless_run opcode i hcall hret hcreate).meets

theorem returns_run (opcode : UInt16) (t : Turn σ) : Returns t ((Instruction.ret.run opcode).result t) := by
  rw [result_ret]
  cases hframes : t.thread.calls.frames with
  | nil => exact .underflow hframes
  | cons frame frames => exact .back hframes

end

end Exec

namespace Visit

/-- Where the call returns to, if its operands can be read. -/
def target? (v : Visit σ) : Option Nat := (Exec.callPosition.result v.start).1.toOption

/-- The position behind the operands of a call, or where the script says that the number among them returns to. -/
inductive ReturnsTo (v : Visit σ) : Nat → Prop
  | behind {opcode : Bytes} {label : Expr} (hids : v.world.shared.options.useReturnIds = false)
    (hlength : opcode.length = 2)
    (hcode : opcode ++ (label.encode ++ [0]) <+: v.thread.script.code.drop v.thread.pc) :
    ReturnsTo v (v.thread.pc + (opcode ++ (label.encode ++ [0])).length)
  | numbered {opcode : Bytes} {label : Expr} {number : UInt16} {target : Nat}
    (hids : v.world.shared.options.useReturnIds = true) (hlength : opcode.length = 2)
    (hcode : opcode ++ (label.encode ++ [0] ++ toLittleEndian 2 number.toNat) <+:
      v.thread.script.code.drop v.thread.pc)
    (haddress : v.thread.script.returnAddress number = .ok target) : ReturnsTo v target

variable {v : Visit σ} {id : ThreadId} {target : Nat} {flow : Flow}

theorem returnsTo_of_target {p : UInt16 × Cursor} (hopcode : (v.thread.cursorAt v.thread.pc).opcode = .ok p)
    (h : (Exec.callPosition.result v.start).1 = .ok target) : v.ReturnsTo target := by
  have hrun : Exec.callPosition.result v.start = (.ok target, (Exec.callPosition.result v.start).2) := Prod.ext h rfl
  obtain ⟨value, t, hlabel, hposition⟩ := Exec.exists_of_bind hrun
  obtain ⟨label, hpasses⟩ := Exec.passes_expr hlabel
  have hoptions : t.world.shared.options = v.world.shared.options := by
    rw [hpasses.turn_eq]
    rfl
  have haddress := Exec.returnPosition_cases hposition
  rw [hoptions, hpasses.script_eq] at haddress
  rcases haddress with ⟨hids, rfl, -⟩ | ⟨hids, number, hnumber, haddress⟩
  · obtain ⟨opcode, hlength, hcode, hpc⟩ := Thread.exists_bytes hopcode hpasses.passes
    rw [hpc]
    exact .behind hids hlength hcode
  · have hboth := hpasses.trans (Exec.passes_readU16 hnumber)
    obtain ⟨opcode, hlength, hcode, -⟩ := Thread.exists_bytes hopcode hboth.passes
    exact .numbered hids hlength hcode haddress

theorem ReturnsTo.toNat_ofNat (h : v.ReturnsTo target) (hparsed : v.thread.script.Parsed) :
    (UInt32.ofNat target).toNat = target := by
  cases h with
  | @behind opcode label hids hlength hcode =>
    have hle := hcode.length_le
    rw [List.length_drop, v.thread.script.length_code] at hle
    rw [List.length_append, hlength] at hle ⊢
    have hlt := hparsed.sound.codeEnd_lt
    exact UInt32.toNat_ofNat_of_lt' (show _ < 2 ^ 32 by omega)
  | numbered hids hlength hcode haddress =>
    exact hparsed.sound.toNat_ofNat (hparsed.sound.holds_returnAddress haddress)

section

variable [Stage σ]

def fault? (v : Visit σ) : Option Fault :=
  match v.run? with
  | .ok (.error (.fault f), _) => some f
  | _ => none

/-- What the instruction is to the call stack. It is nothing if it does not come to its end. -/
def callEvent (v : Visit σ) (id : ThreadId) : CallEvent :=
  match instructionAt v.thread v.world, (v.outcome id).ending, v.target? with
  | .call, .went _, some target => .called target
  | .ret, .went _, _ => .returned
  | _, _, _ => .other

theorem faulted_iff : (v.outcome id).ending = .faulted ↔ v.fault?.isSome = true := by
  rw [outcome_eq, fault?]
  cases v.run? with
  | error d => simp
  | ok r => obtain ⟨(d | f) | flow, t⟩ := r <;> simp [stepResult]

/-- A call that can be executed ends in one of the ways of a call. -/
theorem exists_calls (hat : instructionAt v.thread v.world = .call) : ∃ r, v.run? = .ok r ∧ Exec.Calls v.start r ∧
    ∀ target, (Exec.callPosition.result v.start).1 = .ok target → v.target? = some target ∧ v.ReturnsTo target := by
  cases hrun : v.run? with
  | error d => cases hat.symm.trans (instructionAt_of_error hrun)
  | ok r =>
    obtain ⟨p, hopcode, rfl⟩ := exists_opcode_of_ok hrun
    rw [hat]
    refine ⟨_, rfl, Exec.calls_run p.1 v.start, ?_⟩
    intro target htarget
    exact ⟨by rw [target?, htarget]; rfl, returnsTo_of_target hopcode htarget⟩

theorem exists_returns (hat : instructionAt v.thread v.world = .ret) :
    ∃ r, v.run? = .ok r ∧ Exec.Returns v.start r := by
  cases hrun : v.run? with
  | error d => cases hat.symm.trans (instructionAt_of_error hrun)
  | ok r =>
    obtain ⟨p, -, rfl⟩ := exists_opcode_of_ok hrun
    rw [hat]
    exact ⟨_, rfl, Exec.returns_run p.1 v.start⟩

theorem calls_of_other (id : ThreadId) (hcall : instructionAt v.thread v.world ≠ .call)
    (hret : instructionAt v.thread v.world ≠ .ret) :
    (v.outcome id).thread.calls = v.thread.calls ∧ v.callEvent id = .other := by
  constructor
  · rw [outcome_eq]
    cases hrun : v.run? with
    | error d => rfl
    | ok r =>
      obtain ⟨p, -, rfl⟩ := exists_opcode_of_ok hrun
      refine (stepResult_thread id v.thread.pc _ _).2.1.trans ?_
      exact (Exec.walks_run p.1 _ hcall hret v.start).calls_eq
  · rw [callEvent]
    split
    · rename_i hat _ _
      exact absurd hat hcall
    · rename_i hat _
      exact absurd hat hret
    · rfl

theorem ofCalls_of_other {f : Fault} (hcall : instructionAt v.thread v.world ≠ .call)
    (hret : instructionAt v.thread v.world ≠ .ret) (hfault : v.fault? = some f) : f.ofCalls = false := by
  rw [fault?] at hfault
  cases hrun : v.run? with
  | error d =>
    rw [hrun] at hfault
    cases hfault
  | ok r =>
    obtain ⟨p, -, hresult⟩ := exists_opcode_of_ok hrun
    have hmeets := Exec.meets_run p.1 (instructionAt v.thread v.world) hcall hret v.start
    rw [hresult] at hmeets
    rw [hrun] at hfault
    obtain ⟨(d | f') | flow, t⟩ := r
    · cases hfault
    · cases hfault
      exact hmeets f rfl
    · cases hfault

theorem called_of_went (hat : instructionAt v.thread v.world = .call) (hwent : (v.outcome id).ending = .went flow) :
    ∃ target, v.callEvent id = .called target ∧ v.ReturnsTo target ∧ v.thread.calls.depth < callStackDepth ∧
      (v.outcome id).thread.calls = ⟨UInt32.ofNat target :: v.thread.calls.frames⟩ := by
  obtain ⟨r, hrun, hcalls, hposition⟩ := exists_calls hat
  have houtcome := v.outcome_eq id
  rw [hrun] at houtcome
  rw [houtcome] at hwent
  cases hcalls with
  | unread _ | overflow _ _ _ | missed _ => cases hwent
  | @entered target t htarget hroom hpush =>
    obtain ⟨hknown, hreturns⟩ := hposition target htarget
    refine ⟨target, ?_, hreturns, hroom, ?_⟩
    · rw [callEvent, hat, hknown, houtcome]
      rfl
    · rw [houtcome]
      exact hpush

theorem returned_of_went (hat : instructionAt v.thread v.world = .ret) (hwent : (v.outcome id).ending = .went flow) :
    ∃ frame frames, v.callEvent id = .returned ∧ v.thread.calls = ⟨frame :: frames⟩ ∧
      (v.outcome id).thread.calls = ⟨frames⟩ ∧ (v.outcome id).thread.pc = frame.toNat := by
  obtain ⟨r, hrun, hreturns⟩ := exists_returns hat
  have houtcome := v.outcome_eq id
  rw [hrun] at houtcome
  have hevent : v.callEvent id = .returned := by rw [callEvent, hat, hwent]
  rw [houtcome] at hwent
  cases hreturns with
  | underflow _ => cases hwent
  | @back frame frames hframes =>
    refine ⟨frame, frames, hevent, congrArg CallStack.mk hframes, ?_, ?_⟩
    · rw [houtcome]
      rfl
    · rw [houtcome]
      rfl

theorem callEvent_of_faulted (h : (v.outcome id).ending = .faulted) :
    v.callEvent id = .other ∧ (v.outcome id).thread.calls = v.thread.calls := by
  have hfaults : (v.outcome id).Faults v.thread v.world := faults_step h
  constructor
  · rw [callEvent, h]
    cases instructionAt v.thread v.world <;> rfl
  · rw [hfaults.thread_eq]

/-- An instruction does to the call stack what it is to it. -/
theorem acts (hparsed : v.thread.script.Parsed) (hsound : ∀ halt, (v.outcome id).ending ≠ .halted halt) :
    (v.callEvent id).Acts v.thread.calls (v.outcome id).thread.calls := by
  cases hending : (v.outcome id).ending with
  | halted halt => exact absurd hending (hsound halt)
  | faulted =>
    obtain ⟨hevent, hcalls⟩ := callEvent_of_faulted hending
    rw [hevent, hcalls]
    exact .other _
  | went flow =>
    by_cases hcall : instructionAt v.thread v.world = .call
    · obtain ⟨target, hevent, hreturns, hroom, hcalls⟩ := called_of_went hcall hending
      have hacts := CallEvent.Acts.called (UInt32.ofNat target) v.thread.calls hroom
      rw [hreturns.toNat_ofNat hparsed] at hacts
      rwa [hevent, hcalls]
    · by_cases hret : instructionAt v.thread v.world = .ret
      · obtain ⟨frame, frames, hevent, hbefore, hafter, -⟩ := returned_of_went hret hending
        rw [hevent, hbefore, hafter]
        exact .returned frame frames
      · obtain ⟨hcalls, hevent⟩ := calls_of_other id hcall hret
        rw [hevent, hcalls]
        exact .other _

theorem overflow_iff (depth : Nat) : v.fault? = some (.callStackOverflow depth) ↔
    instructionAt v.thread v.world = .call ∧ v.target?.isSome = true ∧ callStackDepth ≤ v.thread.calls.depth ∧
      depth = callStackDepth := by
  by_cases hcall : instructionAt v.thread v.world = .call
  · obtain ⟨r, hrun, hcalls, hposition⟩ := exists_calls hcall
    rw [fault?, hrun]
    cases hcalls with
    | @unread d t htarget => simp [hcall, target?, htarget, Except.toOption]
    | overflow htarget hfull _ =>
      have hfull : callStackDepth ≤ v.thread.calls.depth := hfull
      simp [hcall, (hposition _ htarget).1, hfull, eq_comm]
    | missed hroom | entered _ hroom _ =>
      have hroom : ¬ callStackDepth ≤ v.thread.calls.depth := Nat.not_le_of_lt hroom
      simp [hroom]
  · simp only [hcall, false_and, iff_false]
    intro hfault
    by_cases hret : instructionAt v.thread v.world = .ret
    · obtain ⟨r, hrun, hreturns⟩ := exists_returns hret
      rw [fault?, hrun] at hfault
      cases hreturns with
      | underflow _ | back _ => cases hfault
    · cases ofCalls_of_other hcall hret hfault

theorem underflow_iff : v.fault? = some .callStackUnderflow ↔
    instructionAt v.thread v.world = .ret ∧ v.thread.calls.depth = 0 := by
  by_cases hret : instructionAt v.thread v.world = .ret
  · obtain ⟨r, hrun, hreturns⟩ := exists_returns hret
    rw [fault?, hrun]
    cases hreturns with
    | underflow hempty =>
      have hdepth : v.thread.calls.depth = 0 := congrArg List.length hempty
      simp [hret, hdepth]
    | @back frame frames hframes =>
      have hdepth : v.thread.calls.depth = frames.length + 1 := congrArg List.length hframes
      simp [hdepth]
  · simp only [hret, false_and, iff_false]
    intro hfault
    by_cases hcall : instructionAt v.thread v.world = .call
    · obtain ⟨r, hrun, hcalls, -⟩ := exists_calls hcall
      rw [fault?, hrun] at hfault
      cases hcalls with
      | unread _ | overflow _ _ _ | missed _ | entered _ _ _ => cases hfault
    · cases ofCalls_of_other hcall hret hfault

end

end Visit
end NovelEngine
