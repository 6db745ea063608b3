import NovelEngine.Proofs.Machine.Settlement

/-!
# Numbers as handles

A script may come by a number in any way. The number stands for the live thread whose handle it is once its sign bit
is cleared, and for no other; what is asked to be done to any other number might as well not have been asked.
-/
namespace NovelEngine

theorem toNat_and_maxValue (handle : Int32) :
    (handle &&& Int32.maxValue).toUInt32.toNat = handle.toUInt32.toNat % 0x80000000 := by
  rw [Int32.toUInt32_and, UInt32.toNat_and]
  exact Nat.and_two_pow_sub_one_eq_mod handle.toUInt32.toNat 31

theorem toNat_toUInt32_inj {a b : Int32} : a.toUInt32.toNat = b.toUInt32.toNat ↔ a = b := by
  constructor
  · intro h
    rw [← Int32.toInt32_toUInt32 a, ← Int32.toInt32_toUInt32 b, UInt32.toNat_inj.mp h]
  · rintro rfl
    rfl

theorem and_maxValue_of_nonneg {handle : Int32} (h : 0 ≤ handle) : handle &&& Int32.maxValue = handle := by
  have hlt : handle.toUInt32.toNat < 2 ^ 31 := by
    rw [Int32.toNat_toUInt32_of_le h]
    exact handle.toNatClampNeg_lt
  rw [← toNat_toUInt32_inj, toNat_and_maxValue]
  exact Nat.mod_eq_of_lt hlt

/-- If the place fits into a handle, place and generation that are read off a number are those of the identifier
whose handle is left when the sign bit is cleared. -/
theorem ThreadId.toScriptHandle_eq_iff {id : ThreadId} (hid : id.index.toNat ≤ maxScriptIndex) (handle : Int32) :
    id.toScriptHandle = handle &&& Int32.maxValue ↔
      (ofScriptHandle handle).index = id.index ∧ (ofScriptHandle handle).matchesGeneration id.generation = true := by
  have hmax : id.index.toNat ≤ 0xFFFF := hid
  have hindex : (UInt32.ofNat (handle.toUInt32.toNat % 0x10000)).toNat = handle.toUInt32.toNat % 0x10000 :=
    UInt32.toNat_ofNat_of_lt' (by simp only [UInt32.size]; omega)
  have hgeneration : (UInt32.ofNat (handle.toUInt32.toNat / 0x10000 % 0x8000)).toNat =
      handle.toUInt32.toNat / 0x10000 % 0x8000 :=
    UInt32.toNat_ofNat_of_lt' (by simp only [UInt32.size]; omega)
  rw [← toNat_toUInt32_inj, toNat_toScriptHandle, toNat_and_maxValue, ← UInt32.toNat_inj]
  simp only [ofScriptHandle, matchesGeneration, hindex, hgeneration, beq_iff_eq]
  omega

namespace Arena

variable {α : Type} {a : Arena α} {id : ThreadId}

theorem WellFormed.resolve_eq_some_iff_live (h : a.WellFormed) (handle : Int32) :
    a.resolve handle = some id ↔ a.contains id = true ∧ id.toScriptHandle = handle &&& Int32.maxValue := by
  rw [resolve_eq_some_iff]
  constructor
  · rintro ⟨hindex, hmatch, hlive⟩
    exact ⟨hlive, (ThreadId.toScriptHandle_eq_iff (h.index_bounds hlive).2 handle).mpr ⟨hindex, hmatch⟩⟩
  · rintro ⟨hlive, heq⟩
    obtain ⟨hindex, hmatch⟩ := (ThreadId.toScriptHandle_eq_iff (h.index_bounds hlive).2 handle).mp heq
    exact ⟨hindex, hmatch, hlive⟩

end Arena

/-- What an instruction asks to be done to the thread of its operand. -/
def Instruction.directive? : Instruction → Option (Int32 → LifecycleRequest)
  | threadKill => some .kill
  | threadPause => some .pause
  | threadResume => some .resume
  | _ => none

theorem LifecycleRequest.handle?_directive {i : Instruction} {directive : Int32 → LifecycleRequest}
    (hi : i.directive? = some directive) (operand : Int32) : (directive operand).handle? = some operand := by
  cases i <;> cases hi <;> rfl

theorem Instruction.run_of_directive {σ : Type} [Stage σ] {i : Instruction} {directive : Int32 → LifecycleRequest}
    (hi : i.directive? = some directive) (opcode : UInt16) : i.run opcode =
      (Exec.expr >>= fun operand => Exec.request (directive operand) >>= fun _ => pure Flow.next : Exec σ Flow) := by
  cases i <;> cases hi <;> rfl

theorem Instruction.asks_of_directive {σ : Type} [Stage σ] {i : Instruction} {directive : Int32 → LifecycleRequest}
    (hi : i.directive? = some directive) (opcode : UInt16) (t : Turn σ) :
    let shared := ((i.run opcode).result t).2.world.shared
    shared.threads = t.world.shared.threads ∧ (shared.requests = t.world.shared.requests ∨
      ∃ operand, (Exec.expr.result t).1 = .ok operand ∧ (directive operand).handle? = some operand ∧
        shared.requests = directive operand :: t.world.shared.requests) := by
  have hpool : (Exec.expr.result t).2.world.shared.pool = t.world.shared.pool :=
    congrArg Surroundings.toPool (Exec.surroundings_eq fun _ => Exec.follows_expr)
  have hthreads : (Exec.expr.result t).2.world.shared.threads = t.world.shared.threads := congrArg Pool.threads hpool
  have hrequests : (Exec.expr.result t).2.world.shared.requests = t.world.shared.requests :=
    congrArg Pool.requests hpool
  rw [run_of_directive hi, Exec.result_bind]
  revert hthreads hrequests
  generalize Exec.expr.result t = r
  obtain ⟨e | operand, t'⟩ := r
  · exact fun hthreads hrequests => ⟨hthreads, .inl hrequests⟩
  · intro hthreads hrequests
    refine ⟨hthreads, .inr ⟨operand, rfl, LifecycleRequest.handle?_directive hi operand, ?_⟩⟩
    exact congrArg (directive operand :: ·) hrequests

namespace Machine

variable {m : Machine} {id : ThreadId} {options : MachineOptions} {library : Option ScriptLibrary}

/-- No live thread has the number as its handle, sign bit aside. -/
def Strays (m : Machine) (handle : Int32) : Prop :=
  ∀ id, m.shared.threads.contains id = true → id.toScriptHandle ≠ handle &&& Int32.maxValue

theorem resolve_of_strays {handle : Int32} (hwf : m.shared.threads.WellFormed) (h : m.Strays handle) :
    m.shared.threads.resolve handle = none := by
  cases hresolve : m.shared.threads.resolve handle with
  | none => rfl
  | some id =>
    obtain ⟨hlive, heq⟩ := (hwf.resolve_eq_some_iff_live handle).mp hresolve
    exact absurd heq (h id hlive)

/-- Any of the requests that reach no thread may be left out. -/
theorem aftermath_of_keep (m : Machine) (keep : LifecycleRequest → Bool)
    (h : ∀ r ∈ m.shared.requests, keep r = false → m.reaches r = false) :
    ({ m with shared.requests := m.shared.requests.filter keep } : Machine).aftermath = m.aftermath := by
  have hkept : (m.shared.requests.filter keep).filter m.reaches = m.shared.requests.filter m.reaches := by
    rw [List.filter_filter]
    refine List.filter_congr fun r hr => ?_
    cases hkeep : keep r with
    | true => rw [Bool.and_true]
    | false => rw [h r hr hkeep, Bool.false_and]
  have hall := aftermath_filter { m with shared.requests := m.shared.requests.filter keep }
  have hreaches : ({ m with shared.requests := m.shared.requests.filter keep } : Machine).reaches = m.reaches := rfl
  rw [← hall, ← m.aftermath_filter, hreaches]
  exact congrArg (fun requests => ({ m with shared.requests := requests } : Machine).aftermath) hkept

theorem reaches_of_strays {r : LifecycleRequest} {handle : Int32} (hwf : m.shared.threads.WellFormed)
    (hr : r.handle? = some handle) (h : m.Strays handle) : m.reaches r = false := by
  rw [reaches, hr, Option.all_some, resolve_of_strays hwf h]
  rfl

/-- Numbers act on the live threads whose handles they are, sign bit aside, and on no others. -/
structure ActsByHandle (m : Machine) : Prop where
  resolve_iff : ∀ (handle : Int32) (id : ThreadId), m.shared.threads.resolve handle = some id ↔
    m.shared.threads.contains id = true ∧ id.toScriptHandle = handle &&& Int32.maxValue
  resolve_iff_of_nonneg : ∀ (handle : Int32) (id : ThreadId), 0 ≤ handle →
    (m.shared.threads.resolve handle = some id ↔ m.shared.threads.contains id = true ∧ id.toScriptHandle = handle)
  /-- To end, pause or resume a thread is no more than to ask for it. -/
  asks : ∀ (σ : Type) [Stage σ] (i : Instruction) (directive : Int32 → LifecycleRequest) (opcode : UInt16) (t : Turn σ),
    i.directive? = some directive →
    let shared := ((i.run opcode).result t).2.world.shared
    shared.threads = t.world.shared.threads ∧ (shared.requests = t.world.shared.requests ∨
      ∃ operand, (Exec.expr.result t).1 = .ok operand ∧ (directive operand).handle? = some operand ∧
        shared.requests = directive operand :: t.world.shared.requests)
  /-- When the turns are over, requests with numbers that are the handle of no live thread might as well not be there. -/
  strays : ∀ (σ : Type) [Stage σ] (delta : Single) (stage : σ) (report : TickReport) (keep : LifecycleRequest → Bool),
    (m.tick delta stage).value.result = .ok report →
    (∀ r ∈ (m.turned delta stage).shared.requests, keep r = false →
      ∃ handle, r.handle? = some handle ∧ (m.turned delta stage).Strays handle) →
    (m.tick delta stage).value.machine = ({ m.turned delta stage with
      shared.requests := (m.turned delta stage).shared.requests.filter keep } : Machine).aftermath
  /-- Turns that are cut short leave all requests waiting. -/
  waits : ∀ (σ : Type) [Stage σ] (delta : Single) (stage : σ) (halt : Halt),
    (m.tick delta stage).value.result = .error halt → (m.tick delta stage).value.machine = m.turned delta stage

theorem Reachable.actsByHandle (h : Reachable options library m) : m.ActsByHandle where
  resolve_iff handle id := h.pending.wellFormed.resolve_eq_some_iff_live handle
  resolve_iff_of_nonneg handle id hpos := by
    refine (h.pending.wellFormed.resolve_eq_some_iff_live handle).trans ?_
    rw [and_maxValue_of_nonneg hpos]
    rfl
  asks σ _ i directive opcode t hi := Instruction.asks_of_directive hi opcode t
  strays σ _ delta stage report keep hok hkeep := by
    have hwf : (m.turned delta stage).shared.threads.WellFormed := (h.pending.turned delta stage).wellFormed
    rw [(tick_eq_ok hok).1, aftermath_of_keep]
    · rfl
    · intro r hr hout
      obtain ⟨handle, hhandle, hstrays⟩ := hkeep r hr hout
      exact reaches_of_strays hwf hhandle hstrays
  waits σ _ delta stage halt herror := tick_eq_error herror

/-- A thread wants to end the thread with handle 2, sign bit set. There is none, and it is as if it had not. -/
theorem Reachable.actsByHandle_stray :
    let script := Script.build 1 [0, 9, 0x32, 2, 0, 0, 0x80, 0, 0, 1] [0] []
    let start := (Machine.create {} none).value
    let loaded := (start.putScript 0 script).getD start
    let m := ((loaded.spawn 0 0).toOption.map Prod.snd).getD loaded
    let turned := m.turned Single.zero Recorder.empty
    Reachable {} none m ∧ m.ActsByHandle ∧ turned.shared.requests = [.kill (-2147483646)] ∧
      (m.tick Single.zero Recorder.empty).value.machine =
        ({ turned with shared.requests := [] } : Machine).aftermath := by
  intro script start loaded m turned
  have hloaded : Reachable {} none loaded := .putScript 0 script .create rfl
  have hm : Reachable {} none m := .spawn 0 0 ⟨1, 0⟩ hloaded rfl
  have hrequests : turned.shared.requests = [.kill (-2147483646)] := by decide +kernel
  have hresult : (m.tick Single.zero Recorder.empty).value.result = .ok ⟨2, 1, 0⟩ := by decide +kernel
  have hacts := hm.actsByHandle
  refine ⟨hm, hacts, hrequests, ?_⟩
  have hnobody : turned.shared.threads.resolve (-2147483646) = none := by decide +kernel
  have hstrays : turned.Strays (-2147483646) := by
    intro id hlive heq
    have hwf : turned.shared.threads.WellFormed := (hm.pending.turned Single.zero Recorder.empty).wellFormed
    rw [(hwf.resolve_eq_some_iff_live _).mpr ⟨hlive, heq⟩] at hnobody
    cases hnobody
  have hfilter : turned.shared.requests.filter (fun _ => false) = [] := List.filter_eq_nil_iff.mpr (by simp)
  rw [hacts.strays Recorder _ _ _ (fun _ => false) hresult, hfilter]
  intro r hr _
  rw [hrequests, List.mem_singleton] at hr
  exact ⟨-2147483646, hr ▸ rfl, hstrays⟩

/-- Handles are never negative, but a thread that wants to end the thread with a negative number is ended itself. -/
theorem kill_of_negative_number :
    let script := Script.build 1 [0, 9, 0x32, 1, 0, 0, 0x80, 0, 0, 1] [0] []
    let start := (Machine.create {} none).value
    let loaded := (start.putScript 0 script).getD start
    let m := ((loaded.spawn 0 0).toOption.map Prod.snd).getD loaded
    let turned := m.turned Single.zero Recorder.empty
    let after := (m.tick Single.zero Recorder.empty).value.machine
    Reachable {} none m ∧ (∀ id : ThreadId, id.toScriptHandle ≠ -2147483647) ∧
      m.shared.threads.resolve (-2147483647) = some ⟨1, 0⟩ ∧ turned.shared.requests = [.kill (-2147483647)] ∧
      turned.shared.threads.contains ⟨1, 0⟩ = true ∧ after.shared.threads.contains ⟨1, 0⟩ = false := by
  intro script start loaded m turned after
  have hloaded : Reachable {} none loaded := .putScript 0 script .create rfl
  have hm : Reachable {} none m := .spawn 0 0 ⟨1, 0⟩ hloaded rfl
  refine ⟨hm, ?_, by decide +kernel, by decide +kernel, by decide +kernel, by decide +kernel⟩
  intro id heq
  have hint := congrArg Int32.toInt heq
  rw [ThreadId.toInt_toScriptHandle] at hint
  have hnegative : (-2147483647 : Int32).toInt = -2147483647 := by decide
  omega

end Machine
end NovelEngine
