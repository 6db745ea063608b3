import NovelEngine.Machine.Turn

/-!
# What instructions leave alone

An ordinary instruction neither reads nor changes the arena, the requests, the budget and the state of its
thread: within other surroundings it does the same. The instructions on threads change the surroundings in one
of two ways, by a new thread or by a request.
-/
namespace NovelEngine

variable {σ α β : Type}

namespace Exec

def result (x : Exec σ α) (t : Turn σ) : Except Failure α × Turn σ := (x.run.run t).value

variable (t : Turn σ)

theorem result_bind (x : Exec σ α) (f : α → Exec σ β) :
    (x >>= f).result t = match x.result t with
      | (.ok a, t') => (f a).result t'
      | (.error e, t') => (.error e, t') := by
  unfold result
  simp only [ExceptT.run_bind, StateT.run_bind, Noted.value_bind]
  generalize (x.run.run t).value = r
  obtain ⟨r, t'⟩ := r
  cases r <;> rfl

@[simp] theorem result_lift (x : Noted α) :
    Exec.result (ExceptT.lift (StateT.lift x)) t = (.ok x.value, t) := rfl

@[simp] theorem result_checked (r : Except Defect α) :
    (checked r : Exec σ α).result t = (r.mapError .defect, t) := by
  cases r <;> rfl

@[simp] theorem result_permitted (r : Except Fault α) :
    (permitted r : Exec σ α).result t = (r.mapError .fault, t) := by
  cases r <;> rfl

@[simp] theorem result_shared : (shared : Exec σ Shared).result t = (.ok t.world.shared, t) := rfl

def enter (target : Nat) (label : Int32) : Exec σ Flow :=
  thread >>= fun t => permitted (t.calls.push target) >>= fun calls =>
    setThread { t with calls } >>= fun _ => jump label >>= fun _ => pure Flow.next

theorem result_enter (target : Nat) (label : Int32) : (enter target label).result t =
    match t.thread.calls.push target with
    | .error f => (.error (.fault f), t)
    | .ok calls =>
      match t.thread.script.label label with
      | .error d => (.error (.defect d), { t with thread.calls := calls })
      | .ok pos => (.ok .next, { t with thread.calls := calls, pc := pos }) := by
  have hrun : (enter target label).result t = (permitted (t.thread.calls.push target) >>= fun calls =>
      setThread { t.thread with calls } >>= fun _ => jump label >>= fun _ => pure Flow.next).result t := rfl
  rw [hrun, result_bind, result_permitted]
  cases t.thread.calls.push target with
  | error f => rfl
  | ok calls =>
    let t' : Turn σ := { t with thread.calls := calls }
    show ((checked (t.thread.script.label label) >>= setPc) >>= fun _ => pure Flow.next : Exec σ Flow).result t' = _
    rw [result_bind, result_bind, result_checked]
    cases t.thread.script.label label with
    | error d => rfl
    | ok pos => rfl

def create (buffer label : Int32) : Exec σ Flow :=
  shared >>= fun s => permitted (s.spawn buffer.toInt label) >>= fun p => setShared p.2 >>= fun _ =>
    request (.spawn p.1) >>= fun _ => setResult p.1.toScriptHandle >>= fun _ => pure Flow.next

theorem result_create (buffer label : Int32) : (create buffer label).result t =
    match t.world.shared.spawn buffer.toInt label with
    | .error f => (.error (.fault f), t)
    | .ok (id, s) => (.ok .next, { t with
        world.shared := { s with requests := .spawn id :: s.requests }
        thread.result := id.toScriptHandle }) := by
  unfold create
  simp only [result_bind, result_shared, result_permitted]
  cases t.world.shared.spawn buffer.toInt label <;> rfl

end Exec

/-- The stored threads, how many there may be, and what has been asked to be done to them. -/
structure Pool where
  threads : Arena Thread
  requests : List LifecycleRequest
  maxThreads : Nat

def Shared.pool (s : Shared) : Pool := ⟨s.threads, s.requests, s.options.maxThreads⟩

/-- What ordinary instructions neither read nor change. -/
structure Surroundings extends Pool where
  budget : UInt32
  buffer : Nat
  state : ThreadState
  paused : Bool

def Thread.within (t : Thread) (s : Surroundings) : Thread :=
  { t with buffer := s.buffer, state := s.state, paused := s.paused }

def Shared.within (shared : Shared) (s : Surroundings) : Shared :=
  { shared with
    options.instructionsPerTick := s.budget
    options.maxThreads := s.maxThreads
    threads := s.threads
    requests := s.requests }

namespace Turn

def surroundings (t : Turn σ) : Surroundings where
  toPool := t.world.shared.pool
  budget := t.world.shared.options.instructionsPerTick
  buffer := t.thread.buffer
  state := t.thread.state
  paused := t.thread.paused

def within (t : Turn σ) (s : Surroundings) : Turn σ :=
  ⟨t.thread.within s, t.pc, ⟨t.world.shared.within s, t.world.stage⟩⟩

@[simp] theorem within_surroundings (t : Turn σ) : t.within t.surroundings = t := rfl

@[simp] theorem surroundings_within (t : Turn σ) (s : Surroundings) : (t.within s).surroundings = s := rfl

end Turn

namespace Exec

/-- From a turn within other surroundings, `y` does what `x` does from the turn. -/
def Follows (s : Surroundings) (t : Turn σ) (x y : Exec σ α) : Prop :=
  y.result (t.within s) = ((x.result t).1, (x.result t).2.within s)

variable {s : Surroundings} {t : Turn σ} {x y : Exec σ α}

theorem follows_pure (a : α) : Follows s t (pure a) (pure a) := rfl

theorem Follows.bind {f g : α → Exec σ β} (h : Follows s t x y)
    (hf : ∀ a t', Follows s t' (f a) (g a)) : Follows s t (x >>= f) (y >>= g) := by
  unfold Follows at h ⊢
  rw [result_bind, result_bind, h]
  obtain ⟨r, t'⟩ := x.result t
  cases r with
  | ok a => exact hf a t'
  | error e => rfl

theorem follows_ite {p : Prop} [Decidable p] {x' y' : Exec σ α} (h : p → Follows s t x y)
    (h' : ¬ p → Follows s t x' y') : Follows s t (if p then x else x') (if p then y else y') := by
  split
  · exact h ‹p›
  · exact h' ‹¬ p›

theorem follows_get {f g : Turn σ → Exec σ β} (h : Follows s t (f t) (g (t.within s))) :
    Follows s t (get >>= f) (get >>= g) := h

theorem follows_thread {f g : Thread → Exec σ β} (h : Follows s t (f t.thread) (g (t.thread.within s))) :
    Follows s t (thread >>= f) (thread >>= g) := h

theorem follows_shared {f g : Shared → Exec σ β}
    (h : Follows s t (f t.world.shared) (g (t.world.shared.within s))) :
    Follows s t (shared >>= f) (shared >>= g) := h

theorem follows_checked (r : Except Defect α) : Follows s t (checked r) (checked r) := by
  simp [Follows]

theorem follows_permitted (r : Except Fault α) : Follows s t (permitted r) (permitted r) := by
  simp [Follows]

theorem follows_log (level : Level) (topic : Topic) (text : String) :
    Follows s t (log level topic text) (log level topic text) := rfl

theorem follows_setThread (u : Thread) : Follows s t (setThread u) (setThread (u.within s)) := rfl

theorem follows_setShared (u : Shared) : Follows s t (setShared u) (setShared (u.within s)) := rfl

theorem follows_setPc (pc : Nat) : Follows s t (setPc pc) (setPc pc) := rfl

theorem follows_setResult (result : Int32) : Follows s t (setResult result) (setResult result) := rfl

theorem follows_onStage (f : σ → Noted σ) : Follows s t (onStage f) (onStage f) := rfl

theorem follows_set (u : Turn σ) : Follows s t (set u) (set (u.within s)) := rfl

theorem follows_expr : Follows s t expr expr :=
  follows_get ((follows_set _).bind fun _ _ => (follows_checked _).bind fun _ _ =>
    (follows_setPc _).bind fun _ _ => follows_pure _)

theorem follows_readU8 : Follows s t readU8 readU8 :=
  follows_get ((follows_checked _).bind fun _ _ => (follows_setPc _).bind fun _ _ => follows_pure _)

theorem follows_readU16 : Follows s t readU16 readU16 :=
  follows_get ((follows_checked _).bind fun _ _ => (follows_setPc _).bind fun _ _ => follows_pure _)

theorem follows_jump (label : Int32) : Follows s t (jump label) (jump label) :=
  follows_thread ((follows_checked _).bind fun _ _ => follows_setPc _)

theorem follows_operands (count : Nat) :
    Follows s t (Instruction.operands count) (Instruction.operands count) := by
  induction count generalizing t with
  | zero => exact follows_pure _
  | succ count ih => exact follows_expr.bind fun _ _ => ih.bind fun _ _ => follows_pure _

end Exec

namespace Instruction

def isLifecycle : Instruction → Bool
  | threadCreate | threadKill | threadPause | threadResume => true
  | _ => false

open Exec

variable {s : Surroundings} {t : Turn σ}

theorem loadScript_within (shared : Shared) (s : Surroundings) (buffer : Int) (id : Int32) :
    ((shared.within s).loadScript buffer id).value =
      (shared.loadScript buffer id).value.map fun p => (p.1, p.2.within s) := by
  have hlibrary : (shared.within s).library = shared.library := rfl
  unfold Shared.loadScript
  rw [hlibrary]
  split
  · cases shared.library with
    | none => rfl
    | some library =>
      dsimp only
      cases library id.toUInt32 with
      | error text => rfl
      | ok bytes =>
        dsimp only
        cases Script.parse id.toUInt32 bytes with
        | error e => rfl
        | ok script => rfl
  · rfl

theorem follows_report (i : Instruction) (operands : List (String × Int32)) :
    Follows s t (i.report operands) (i.report operands) :=
  (follows_log _ _ _).bind fun _ _ => follows_pure _

theorem follows_withAnimation (i : Instruction) (buffer animation : Int32) (f : UInt16 → σ → Noted σ) :
    Follows s t (i.withAnimation buffer animation fun id => onStage (f id))
      (i.withAnimation buffer animation fun id => onStage (f id)) := by
  unfold withAnimation
  split
  · exact follows_onStage _
  · exact follows_log _ _ _

theorem follows_enter (target : Nat) (label : Int32) : Follows s t (enter target label) (enter target label) :=
  follows_thread ((follows_permitted _).bind fun _ _ => (follows_setThread _).bind fun _ _ =>
    (follows_jump _).bind fun _ _ => follows_pure _)

variable [Stage σ]

/-- An ordinary instruction does the same within any surroundings. -/
theorem follows_run (opcode : UInt16) (i : Instruction) (h : i.isLifecycle = false) :
    Follows s t (i.run opcode) (i.run opcode) := by
  cases i with
  | threadCreate | threadKill | threadPause | threadResume => cases h
  | exit | yield | suspend | empty0204 | characterSwap | empty02xx | empty0240 => exact follows_pure _
  | jump => exact follows_expr.bind fun _ _ => (follows_jump _).bind fun _ _ => follows_pure _
  | jumpIf =>
    refine follows_expr.bind fun condition _ => follows_expr.bind fun label _ => ?_
    dsimp only
    split
    · exact (follows_jump _).bind fun _ _ => follows_pure _
    · exact follows_pure _
  | call =>
    refine follows_expr.bind fun label _ => follows_shared (follows_ite (fun _ => ?_) fun _ => ?_)
    · exact follows_readU16.bind fun id _ => follows_thread ((follows_checked _).bind fun target _ =>
        follows_enter target label)
    · exact follows_get (follows_enter _ label)
  | ret =>
    exact follows_thread ((follows_permitted _).bind fun _ _ => (follows_setThread _).bind fun _ _ =>
      (follows_setPc _).bind fun _ _ => follows_pure _)
  | wait => exact follows_expr.bind fun _ _ => follows_pure _
  | assign => exact follows_expr.bind fun _ _ => follows_pure _
  | signalSet | signalClear =>
    exact follows_expr.bind fun _ _ => follows_shared ((follows_checked _).bind fun _ _ =>
      (follows_setShared _).bind fun _ _ => follows_pure _)
  | signalWait =>
    refine follows_expr.bind fun _ _ => follows_shared ((follows_checked _).bind fun set _ => ?_)
    cases set
    · exact follows_pure _
    · exact follows_pure _
  | scriptLoad =>
    refine follows_expr.bind fun buffer _ => follows_expr.bind fun id t' => follows_shared ?_
    unfold Follows
    simp only [result_bind, result_lift, result_checked, loadScript_within]
    cases (t'.world.shared.loadScript buffer.toInt id).value with
    | ok p => rfl
    | error e => rfl
  | debugPrint =>
    exact follows_expr.bind fun _ _ => follows_get ((follows_log _ _ _).bind fun _ _ => follows_pure _)
  | backgroundLoad => exact follows_expr.bind fun _ _ => (follows_onStage _).bind fun _ _ => follows_pure _
  | backgroundRelease => exact (follows_onStage _).bind fun _ _ => follows_pure _
  | loadWait =>
    refine follows_readU8.bind fun code _ => follows_expr.bind fun index t' => ?_
    cases Category.ofCode? code with
    | none =>
      exact (follows_log _ _ _).bind fun _ _ => (follows_setResult _).bind fun _ _ => follows_pure _
    | some category =>
      refine follows_get ?_
      dsimp only [Turn.within]
      split
      · exact (follows_setResult _).bind fun _ _ => follows_pure _
      · exact follows_pure _
  | characterLoad =>
    exact follows_expr.bind fun _ _ => follows_expr.bind fun _ _ => follows_expr.bind fun _ _ =>
      (follows_log _ _ _).bind fun _ _ => (follows_onStage _).bind fun _ _ => follows_pure _
  | characterRelease => exact follows_expr.bind fun _ _ => (follows_onStage _).bind fun _ _ => follows_pure _
  | playAnimation =>
    exact follows_expr.bind fun _ _ => follows_expr.bind fun _ _ => follows_readU8.bind fun _ _ =>
      (follows_log _ _ _).bind fun _ _ => (follows_withAnimation _ _ _ _).bind fun _ _ => follows_pure _
  | setAnimation =>
    exact follows_expr.bind fun _ _ => follows_expr.bind fun _ _ =>
      (follows_log _ _ _).bind fun _ _ => (follows_withAnimation _ _ _ _).bind fun _ _ => follows_pure _
  | stub0207 => exact follows_expr.bind fun _ _ => follows_readU8.bind fun _ _ => follows_report _ _
  | stub0208 => exact (follows_operands 5).bind fun _ _ => follows_report _ _
  | stub0219 => exact follows_expr.bind fun _ _ => follows_report _ _
  | unknown => exact follows_thread ((follows_log _ _ _).bind fun _ _ => follows_pure _)

/-- What holds of the ordinary instructions and of the two things that the others do holds of every instruction, if it
holds across an operand. -/
theorem run_induction {P : Exec σ Flow → Prop} (hordinary : ∀ x, (∀ s t, Follows s t x x) → P x)
    (hexpr : ∀ f, (∀ operand, P (f operand)) → P (expr >>= f))
    (hrequest : ∀ r, (∀ id, r ≠ .spawn id) → P (request r >>= fun _ => pure .next))
    (hcreate : ∀ buffer label, P (create buffer label)) (opcode : UInt16) (i : Instruction) : P (i.run opcode) := by
  cases h : i.isLifecycle with
  | false => exact hordinary _ fun _ _ => follows_run opcode i h
  | true =>
    cases i with
    | threadKill | threadPause | threadResume =>
      exact hexpr _ fun _ => hrequest _ fun _ => LifecycleRequest.noConfusion
    | threadCreate => exact hexpr _ fun buffer => hexpr _ fun label => hcreate buffer label
    | _ => cases h

end Instruction

theorem Exec.surroundings_eq {x : Exec σ α} {t : Turn σ} (h : ∀ s, Follows s t x x) :
    (x.result t).2.surroundings = t.surroundings := by
  have hsame := h t.surroundings
  rw [Follows, Turn.within_surroundings] at hsame
  rw [hsame, Turn.surroundings_within]

/-- What one instruction may do to the pool. -/
inductive Pool.Asks (p : Pool) : Pool → Prop
  | nothing : p.Asks p
  | request (r : LifecycleRequest) (hr : ∀ id, r ≠ .spawn id) : p.Asks { p with requests := r :: p.requests }
  | spawn (thread : Thread) (hroom : p.threads.live < p.maxThreads) :
      p.Asks { p with
        threads := (p.threads.insert thread).2
        requests := .spawn (p.threads.insert thread).1 :: p.requests }

theorem Shared.spawn_eq_ok {s s' : Shared} {buffer : Int} {label : Int32} {id : ThreadId}
    (h : s.spawn buffer label = .ok (id, s')) :
    ∃ thread, s.threads.live < s.options.maxThreads ∧ id = (s.threads.insert thread).1 ∧
      s' = { s with threads := (s.threads.insert thread).2 } := by
  unfold Shared.spawn at h
  split at h
  · cases h
  · split at h
    · cases h
    · split at h
      · cases h
      · rename_i hroom
        cases h
        exact ⟨_, Nat.lt_of_not_le hroom, rfl, rfl⟩

namespace Instruction

open Exec

variable {t : Turn σ}

theorem asks_expr_bind {f : Int32 → Exec σ α}
    (hf : ∀ a (t : Turn σ), t.world.shared.pool.Asks ((f a).result t).2.world.shared.pool) (t : Turn σ) :
    t.world.shared.pool.Asks ((expr >>= f).result t).2.world.shared.pool := by
  have hexpr : (expr.result t).2.world.shared.pool = t.world.shared.pool :=
    congrArg Surroundings.toPool (surroundings_eq fun _ => follows_expr)
  rw [← hexpr, result_bind]
  obtain ⟨result, t'⟩ := expr.result t
  cases result with
  | error e => exact .nothing
  | ok a => exact hf a t'

theorem asks_create (buffer label : Int32) :
    t.world.shared.pool.Asks ((create buffer label).result t).2.world.shared.pool := by
  rw [result_create]
  cases h : t.world.shared.spawn buffer.toInt label with
  | error f => exact .nothing
  | ok p =>
    obtain ⟨thread, hroom, hid, hs⟩ := Shared.spawn_eq_ok (show _ = Except.ok (p.1, p.2) from h)
    show t.world.shared.pool.Asks ({ p.2 with requests := .spawn p.1 :: p.2.requests } : Shared).pool
    rw [hid, hs]
    exact .spawn thread hroom

variable [Stage σ]

/-- Every instruction, whatever it comes to, does at most one thing to the pool. -/
theorem asks_run (opcode : UInt16) (i : Instruction) (t : Turn σ) :
    t.world.shared.pool.Asks ((i.run opcode).result t).2.world.shared.pool := by
  refine run_induction (P := fun x => ∀ t, t.world.shared.pool.Asks (x.result t).2.world.shared.pool) ?_ ?_ ?_ ?_
    opcode i t
  · intro x hx t
    have hpool : (x.result t).2.world.shared.pool = t.world.shared.pool :=
      congrArg Surroundings.toPool (surroundings_eq fun s => hx s t)
    rw [hpool]
    exact .nothing
  · exact fun f hf => asks_expr_bind hf
  · exact fun r hr t => .request r hr
  · exact fun buffer label t => asks_create buffer label

end Instruction
end NovelEngine
