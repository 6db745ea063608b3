import NovelEngine.Proofs.Machine.Turns
import NovelEngine.Proofs.Thread.Amending

/-!
# Records of threads go unread

What is stored of a thread is looked at in its own turn and when the turns are over. So it can be amended before or
after the turns of other threads; and when the turns are over nothing looks at the position of a thread.
-/
namespace NovelEngine

variable {σ α β : Type} {own : ThreadId} {new old : Thread}

def Shared.amending (s : Shared) (own : ThreadId) (new : Thread) : Shared :=
  { s with threads := s.threads.put own new }

/-- The world with another thread stored under an identifier. -/
def World.amending (w : World σ) (own : ThreadId) (new : Thread) : World σ :=
  { w with shared := w.shared.amending own new }

def Turn.amending (t : Turn σ) (own : ThreadId) (new : Thread) : Turn σ := { t with world := t.world.amending own new }

def StepOutcome.amending (s : StepOutcome σ) (own : ThreadId) (new : Thread) : StepOutcome σ :=
  { s with world := s.world.amending own new }

def TurnOutcome.amending (o : TurnOutcome σ) (own : ThreadId) (new : Thread) : TurnOutcome σ :=
  { o with world := o.world.amending own new }

def TurnsOutcome.amending (o : TurnsOutcome σ) (own : ThreadId) (new : Thread) : TurnsOutcome σ :=
  { o with world := o.world.amending own new }

theorem Shared.spawn_amending {s : Shared} (hwf : s.threads.WellFormed) (hget : s.threads.get? own = some old)
    (new : Thread) (buffer : Int) (label : Int32) : (s.amending own new).spawn buffer label =
      (s.spawn buffer label).map fun p => (p.1, p.2.amending own new) := by
  have hscript : (s.amending own new).script? buffer = s.script? buffer := rfl
  have hlive : (s.amending own new).threads.live = s.threads.live := Arena.live_put _ _ _
  have hoptions : (s.amending own new).options = s.options := rfl
  unfold spawn
  rw [hscript, hlive, hoptions]
  cases s.script? buffer with
  | none => rfl
  | some p =>
    dsimp only
    cases p.2.label label with
    | error d => rfl
    | ok pc =>
      have hinsert : (s.amending own new).threads.insert (Thread.start p.2 p.1 pc) =
          let r := s.threads.insert (Thread.start p.2 p.1 pc)
          (r.1, r.2.put own new) :=
        hwf.insert_put hget new _
      dsimp only
      rw [hinsert]
      split
      · rfl
      · rfl

namespace Exec

variable {x : Exec σ α} {f : α → Exec σ β}

/-- The computation comes to the same, whatever is stored of the thread `own`. -/
def Disregards (own : ThreadId) (new : Thread) (x : Exec σ α) : Prop :=
  ∀ (t : Turn σ) old, t.world.shared.threads.WellFormed → t.world.shared.threads.get? own = some old →
    x.result (t.amending own new) = ((x.result t).1, (x.result t).2.amending own new)

theorem disregards_of_follows (h : ∀ t s, Follows s t x x) : Disregards own new x := by
  intro t old _ _
  have hsame := surroundings_eq (h t)
  have hfollows : x.result (t.amending own new) = ((x.result t).1,
      (x.result t).2.within { t.surroundings with threads := t.surroundings.threads.put own new }) :=
    h t { t.surroundings with threads := t.surroundings.threads.put own new }
  rw [hfollows, ← hsame]
  rfl

theorem disregards_expr_bind {f : Int32 → Exec σ β} (hf : ∀ a, Disregards own new (f a)) :
    Disregards own new (expr >>= f) := by
  intro t old hwf hget
  have hexpr : expr.result (t.amending own new) = ((expr.result t).1, (expr.result t).2.amending own new) :=
    disregards_of_follows (fun _ _ => follows_expr) t old hwf hget
  have hpool : (expr.result t).2.world.shared.pool = t.world.shared.pool :=
    congrArg Surroundings.toPool (surroundings_eq fun _ => follows_expr)
  have hthreads := congrArg Pool.threads hpool
  rw [result_bind, result_bind, hexpr]
  revert hthreads
  generalize expr.result t = r
  obtain ⟨e | a, t'⟩ := r
  · exact fun _ => rfl
  · intro hthreads
    change t'.world.shared.threads = t.world.shared.threads at hthreads
    exact hf a t' old (hthreads ▸ hwf) (hthreads ▸ hget)

theorem disregards_create (buffer label : Int32) : Disregards own new (create buffer label : Exec σ Flow) := by
  intro t old hwf hget
  have hspawn := Shared.spawn_amending hwf hget new buffer.toInt label
  change (t.amending own new).world.shared.spawn buffer.toInt label = _ at hspawn
  rw [result_create, result_create, hspawn]
  cases t.world.shared.spawn buffer.toInt label <;> rfl

variable [Stage σ]

/-- No instruction looks at what is stored of another thread. -/
theorem disregards_run (opcode : UInt16) (i : Instruction) : Disregards own new (i.run opcode : Exec σ Flow) := by
  refine Instruction.run_induction ?_ ?_ ?_ disregards_create opcode i
  · exact fun x hx => disregards_of_follows fun t s => hx s t
  · exact fun f hf => disregards_expr_bind hf
  · exact fun r _ _ _ _ _ => rfl

end Exec

section

variable [Stage σ] {id : ThreadId} {thread : Thread} {world : World σ} {wanted : Nat} {order : List ThreadId}
  {lent : Option ThreadId} {delta : Single}

theorem step_amending (id : ThreadId) (thread : Thread) (hwf : world.shared.threads.WellFormed)
    (hget : world.shared.threads.get? own = some old) (new : Thread) :
    (step id thread (world.amending own new)).value = (step id thread world).value.amending own new := by
  rw [step_value, step_value]
  cases (thread.cursorAt thread.pc).opcode with
  | error d => rfl
  | ok p =>
    let x : Exec σ Flow := (world.shared.options.instructionSet.instruction p.1).run p.1
    let t : Turn σ := ⟨thread, thread.pc + 2, world⟩
    have hrun : x.result (t.amending own new) = ((x.result t).1, (x.result t).2.amending own new) :=
      Exec.disregards_run _ _ t old hwf hget
    show stepResult id thread.pc (x.result (t.amending own new)) =
      (stepResult id thread.pc (x.result t)).amending own new
    rw [hrun]
    obtain ⟨(_ | _) | _, t'⟩ := x.result t <;> rfl

theorem runFor_amending (id : ThreadId) (budget : Nat) (thread : Thread) (h : world.Consistent wanted order lent)
    (hget : world.shared.threads.get? own = some old) (new : Thread) :
    (runFor id budget thread (world.amending own new)).value =
      (runFor id budget thread world).value.amending own new := by
  induction budget generalizing thread world with
  | zero => rfl
  | succ budget ih =>
    obtain ⟨news, hbegets⟩ := begets_step id thread h
    have hnext : (step id thread world).value.world.Consistent wanted order lent :=
      Pool.Consistent.asks h (asks_step id thread world)
    have hrest := ih (step id thread world).value.thread hnext (hbegets.gains.get? hget)
    rw [runFor_succ_value, runFor_succ_value, step_amending id thread h.wellFormed hget]
    revert hrest
    generalize (step id thread world).value = s
    intro hrest
    split
    · rfl
    · obtain ⟨(_ | _ | _ | _ | _) | _ | _, thread', world'⟩ := s
      · exact congrArg TurnOutcome.afterStep hrest
      all_goals rfl

theorem turn_amending (delta : Single) (id : ThreadId) (thread : Thread) (h : world.Consistent wanted order lent)
    (hget : world.shared.threads.get? own = some old) (new : Thread) :
    (turn delta id thread (world.amending own new)).value = (turn delta id thread world).value.amending own new := by
  have hglobals : (world.amending own new).shared.globals = world.shared.globals := rfl
  have hoptions : (world.amending own new).shared.options = world.shared.options := rfl
  have hstage : (world.amending own new).stage = world.stage := rfl
  rw [turn_value, turn_value, hglobals, hoptions, hstage]
  split
  · rfl
  · dsimp only
    split
    · exact runFor_amending id _ _ h hget new
    · rfl

theorem turns_amending (delta : Single) {ids : List ThreadId} (hown : own ∉ ids)
    (h : world.Consistent wanted order none) (hget : world.shared.threads.get? own = some old) (new : Thread) :
    (turns delta ids (world.amending own new)).value = (turns delta ids world).value.amending own new := by
  induction ids generalizing world with
  | nil => rfl
  | cons id ids ih =>
    simp only [List.mem_cons, not_or] at hown
    obtain ⟨hne, hown⟩ := hown
    have hcheckout : (world.amending own new).shared.threads.checkout id =
        (world.shared.threads.checkout id).map fun p => (p.1, p.2.put own new) :=
      Arena.checkout_put hget (Ne.symm hne) new
    cases hlent : world.shared.threads.checkout id with
    | none =>
      rw [hlent] at hcheckout
      rw [turns_cons_value, hcheckout, turns_cons_value, hlent]
      exact ih hown h hget
    | some p =>
      obtain ⟨thread, threads⟩ := p
      rw [hlent] at hcheckout
      have hbooks := lending_consistent h hlent
      have hlending : (world.lending threads).shared.threads.get? own = some old :=
        (get?_lending hlent hne).trans hget
      obtain ⟨news, hbegets⟩ := begets_turn delta id thread hbooks
      have hafter := hbegets.gains.get? hlending
      have hback := get?_back delta h hlent hne hget
      have hconsistent := turns_consistent_back delta h hlent
      have hturn : (turn delta id thread ((world.amending own new).lending (threads.put own new))).value = _ :=
        turn_amending delta id thread hbooks hlending new
      rw [turns_cons_of_checkout delta ids hcheckout, turns_cons_of_checkout delta ids hlent, hturn]
      revert hafter hback hconsistent
      generalize (turn delta id thread (world.lending threads)).value = o
      intro hafter hback hconsistent
      have hreturn : (o.amending own new).back id = (o.back id).amending own new := by
        have hcheckin : (o.world.shared.threads.put own new).checkin id o.thread =
            (o.world.shared.threads.checkin id o.thread).put own new :=
          Arena.checkin_put hafter (Ne.symm hne) new o.thread
        exact congrArg (fun threads => (⟨{ o.world.shared with threads }, o.world.stage⟩ : World σ)) hcheckin
      have hhalt : (o.amending own new).halt = o.halt := rfl
      dsimp only
      rw [hreturn, hhalt]
      cases o.halt with
      | some halt => rfl
      | none => exact congrArg (TurnsOutcome.afterTurn o) (ih hown hconsistent hback)

end

namespace Machine

variable {m : Machine} {id : ThreadId} {t : Thread} {handle : Int32} {f : Thread → Thread}

/-- The machine with a thread at another position. -/
def displaced (m : Machine) (id : ThreadId) (pc : Nat) : Machine :=
  match m.thread? id with
  | some t => { m with shared := m.shared.amending id { t with pc } }
  | none => m

theorem displaced_eq (h : m.thread? id = some t) (pc : Nat) :
    m.displaced id pc = { m with shared := m.shared.amending id { t with pc } } := by
  rw [displaced, h]

theorem thread?_displaced (h : m.thread? id = some t) (pc : Nat) (other : ThreadId) :
    (m.displaced id pc).thread? other = if other = id then some { t with pc } else m.thread? other := by
  rw [displaced_eq h]
  exact Arena.get?_put h _ other

theorem contains_displaced (h : m.thread? id = some t) (pc : Nat) (other : ThreadId) :
    (m.displaced id pc).shared.threads.contains other = m.shared.threads.contains other := by
  rw [displaced_eq h]
  exact Arena.contains_put h _ other

theorem onHandle_of_resolve (hid : m.shared.threads.resolve handle = some id) (h : m.thread? id = some t)
    (action : String) (f : Thread → Thread) :
    (m.onHandle handle action f).value = { m with shared := m.shared.amending id (f t) } := by
  have hget : m.shared.threads.get? id = some t := h
  simp only [onHandle, hid, Option.bind_some, hget, Option.map_some]
  rfl

theorem onHandle_of_stale (h : ∀ id, m.shared.threads.resolve handle = some id → m.thread? id = none)
    (action : String) (f : Thread → Thread) : (m.onHandle handle action f).value = m := by
  cases hid : m.shared.threads.resolve handle with
  | none =>
    simp only [onHandle, hid, Option.bind_none]
    rfl
  | some id =>
    have hget : m.shared.threads.get? id = none := h id hid
    simp only [onHandle, hid, Option.bind_some, hget, Option.map_none]
    rfl

theorem onHandle_displaced (hf : ∀ (t : Thread) pc, f { t with pc } = { f t with pc }) (h : m.thread? id = some t)
    (handle : Int32) (action : String) (pc : Nat) :
    ((m.displaced id pc).onHandle handle action f).value = (m.onHandle handle action f).value.displaced id pc := by
  have hresolve : (m.displaced id pc).shared.threads.resolve handle = m.shared.threads.resolve handle :=
    Arena.resolve_congr (contains_displaced h pc) handle
  by_cases hstale : ∀ target, m.shared.threads.resolve handle = some target → m.thread? target = none
  · have hstale' : ∀ target, (m.displaced id pc).shared.threads.resolve handle = some target →
        (m.displaced id pc).thread? target = none := by
      intro target htarget
      have hnone := hstale target (hresolve.symm.trans htarget)
      have hne : target ≠ id := by
        rintro rfl
        rw [h] at hnone
        cases hnone
      rw [thread?_displaced h, if_neg hne, hnone]
    rw [onHandle_of_stale hstale, onHandle_of_stale hstale']
  · simp only [not_forall, exists_prop] at hstale
    obtain ⟨target, htarget, hthere⟩ := hstale
    obtain ⟨u, hu⟩ := Option.ne_none_iff_exists'.mp hthere
    have htarget' := hresolve.trans htarget
    rw [onHandle_of_resolve htarget hu]
    by_cases heq : target = id
    · subst heq
      obtain rfl := Option.some_inj.mp (h.symm.trans hu)
      have hnew : (m.displaced target pc).thread? target = some { t with pc } := by
        rw [thread?_displaced h, if_pos rfl]
      have hafter : ({ m with shared := m.shared.amending target (f t) } : Machine).thread? target = some (f t) := by
        show (m.shared.threads.put target (f t)).get? target = _
        rw [Arena.get?_put h, if_pos rfl]
      rw [onHandle_of_resolve htarget' hnew, displaced_eq h, displaced_eq hafter, hf]
      have hputs := (Arena.put_put h { t with pc } { f t with pc }).trans (Arena.put_put h (f t) { f t with pc }).symm
      exact congrArg (fun threads => (⟨{ m.shared with threads }, m.order⟩ : Machine)) hputs
    · have hnew : (m.displaced id pc).thread? target = some u := by
        rw [thread?_displaced h, if_neg heq, hu]
      have hafter : ({ m with shared := m.shared.amending target (f u) } : Machine).thread? id = some t := by
        show (m.shared.threads.put target (f u)).get? id = _
        rw [Arena.get?_put hu, if_neg (Ne.symm heq)]
        exact h
      rw [onHandle_of_resolve htarget' hnew, displaced_eq h, displaced_eq hafter]
      have hputs := Arena.put_comm h heq { t with pc } (f u)
      exact congrArg (fun threads => (⟨{ m.shared with threads }, m.order⟩ : Machine)) hputs

theorem applyRequest_displaced (h : m.thread? id = some t) (r : LifecycleRequest) (pc : Nat) :
    ((m.displaced id pc).applyRequest r).value = (m.applyRequest r).value.displaced id pc := by
  cases r with
  | kill handle => exact onHandle_displaced (fun _ _ => rfl) h handle _ pc
  | pause handle => exact onHandle_displaced (fun _ _ => rfl) h handle _ pc
  | resume handle => exact onHandle_displaced (fun _ _ => rfl) h handle _ pc
  | spawn other =>
    show (if (m.displaced id pc).shared.threads.contains other then _ else _) =
      displaced (if m.shared.threads.contains other then _ else _) id pc
    rw [contains_displaced h]
    split
    · have hjoined : ({ m with order := m.order ++ [other] } : Machine).thread? id = some t := h
      rw [displaced_eq h, displaced_eq hjoined]
    · rfl

theorem applyAll_displaced (h : (m.thread? id).isSome = true) (rs : List LifecycleRequest) (pc : Nat) :
    ((m.displaced id pc).applyAll rs).value = (m.applyAll rs).value.displaced id pc := by
  induction rs generalizing m with
  | nil => rfl
  | cons r rs ih =>
    obtain ⟨t, ht⟩ := Option.isSome_iff_exists.mp h
    have hthere := (m.isSome_thread?_applyRequest r id).trans h
    show (((m.displaced id pc).applyRequest r).value.applyAll rs).value = _
    rw [applyRequest_displaced ht]
    exact ih hthere

/-- It makes no difference where the threads that leave have stood. -/
theorem reapFrom_put {threads : Arena Thread} (h : threads.get? own = some old) (hended : old.isTerminated = true)
    (hnew : new.isTerminated = true) {ids : List ThreadId} (hmem : own ∈ ids) :
    reapFrom (threads.put own new) ids = reapFrom threads ids := by
  induction ids generalizing threads with
  | nil => cases hmem
  | cons other ids ih =>
    rw [reapFrom, reapFrom, Arena.get?_put h]
    by_cases heq : other = own
    · subst heq
      simp only [if_true, h, Option.map_some, Option.getD_some, hended, hnew]
      rw [Arena.remove_put_self h]
    · have hrest := (List.mem_cons.mp hmem).resolve_left (Ne.symm heq)
      rw [if_neg heq]
      split
      · rw [Arena.remove_put h heq]
        exact ih (Arena.get?_remove h heq) hrest
      · rw [ih h hrest]

theorem reap_displaced (h : m.thread? id = some t) (hended : t.isTerminated = true) (hmem : id ∈ m.order) (pc : Nat) :
    (m.displaced id pc).reap = m.reap := by
  rw [displaced_eq h]
  have hnew : ({ t with pc } : Thread).isTerminated = true := hended
  have hsame : reapFrom (m.shared.threads.put id { t with pc }) m.order = reapFrom m.shared.threads m.order :=
    reapFrom_put h hended hnew hmem
  exact congrArg (fun r => (⟨{ m.shared with threads := r.2 }, r.1⟩ : Machine)) hsame

end Machine
end NovelEngine
