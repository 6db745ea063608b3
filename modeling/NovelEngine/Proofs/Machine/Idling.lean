import NovelEngine.Proofs.Machine.Resumption
import NovelEngine.Proofs.Machine.Visits

/-!
# Threads that execute nothing

As long as a thread executes nothing, nothing is changed of it but its pause and what it waits for. If it may run and
still executes nothing, then it is at the end of its code, where it ends.
-/
namespace NovelEngine

variable {σ : Type}

theorem bridges_budget [Stage σ] (wanted : Nat) (order : List ThreadId) :
    Bridges wanted order fun a b : Moment σ => b.world.budget = a.world.budget where
  refl _ := rfl
  trans h h' := h'.trans h
  lend _ _ := rfl
  poll _ _ _ _ := rfl
  step thread _ := budget_step _ thread _
  stop _ _ _ := rfl
  back _ _ := rfl

namespace Machine

variable [Stage σ] {options : MachineOptions} {library : Option ScriptLibrary} {m m' first : Machine}
  {delta : Single} {stage : σ} {id : ThreadId} {t t₀ t' thread : Thread} {world : World σ} {o : TurnOutcome σ}
  {v : Visit σ} {wanted n : Nat}

def budget (m : Machine) : UInt32 := m.shared.options.instructionsPerTick

omit [Stage σ] in
theorem budget_applyRequest (m : Machine) (r : LifecycleRequest) : (m.applyRequest r).value.budget = m.budget := by
  have hhandle (handle : Int32) (action : String) (f : Thread → Thread) :
      (m.onHandle handle action f).value.budget = m.budget := by
    rcases m.onHandle_value handle action f with heq | ⟨id, thread, -, heq⟩
    · rw [heq]
    · rw [heq]
      rfl
  cases r with
  | kill handle | pause handle | resume handle => exact hhandle _ _ _
  | spawn other =>
    show (if m.shared.threads.contains other then { m with order := m.order ++ [other] } else m).budget = _
    split <;> rfl

theorem Pending.budget_tick (h : m.Pending wanted m.shared.requests) (delta : Single) (stage : σ) :
    (m.tick delta stage).value.machine.budget = m.budget := by
  have hturned : (m.turned delta stage).budget = m.budget := by
    rw [budget, turned_shared]
    exact h.bridges_dusk (bridges_budget wanted m.order) delta stage
  cases hresult : (m.tick delta stage).value.result with
  | error halt => rw [tick_eq_error hresult, hturned]
  | ok report =>
    rw [(tick_eq_ok hresult).1]
    show (m.joined delta stage).budget = m.budget
    rw [joined, Machine.applyRequests, applyAll_eq budget budget_applyRequest]
    exact hturned

omit [Stage σ] in
theorem Hosts.budget_eq (h : m.Hosts m') : m'.budget = m.budget := by
  cases h with
  | putScript buffer script hput =>
    unfold Machine.putScript at hput
    split at hput
    · cases hput
      rfl
    · cases hput
  | loadScript buffer number loaded hload =>
    -- Loading a script keeps whatever budget it finds, so also the one that is there.
    have hsame := Instruction.loadScript_within m.shared ⟨m.shared.pool, m.budget, 0, .running, false⟩
      buffer.toInt64.toInt number.toInt32
    rw [show m.shared.within _ = m.shared from rfl, shared_of_loadScript hload] at hsame
    simp only [Except.map, Except.ok.injEq, Prod.mk.injEq] at hsame
    rw [budget, hsame.2]
    rfl
  | globals globals => rfl
  | spawn buffer label other hspawn =>
    obtain ⟨new, -, -, hshared⟩ := spawn_eq_ok_insert hspawn
    rw [budget, hshared]
    rfl

theorem Takes.budget_eq (ho : m.Takes delta stage id world thread o) (h : m.Pending wanted m.shared.requests) :
    world.budget = m.budget := by
  have hstart : World.Consistent ⟨m.shared, stage⟩ wanted m.order none := h
  obtain @⟨before, rest, w, counts, thread, threads, horder, hbefore, hlent⟩ := ho
  have hturns := (bridges_budget wanted m.order).turns delta before hstart
  rwa [hbefore] at hturns

theorem Runs.head?_visits {found : Thread} {threads : Arena Thread}
    (h : m.Runs delta stage id world found threads thread o)
    (hv : (m.visits delta stage id).head? = some v) : v = ⟨thread, world.lending threads⟩ := by
  rw [h.visits_eq] at hv
  exact NovelEngine.head?_visits hv

/-- At its turn a thread executes something exactly if it may run and is not at the end of its code. -/
theorem Takes.visits_eq_nil_iff (ho : m.Takes delta stage id world thread o) (h : m.Pending wanted m.shared.requests)
    (hbudget : m.budget ≠ 0) : m.visits delta stage id = [] ↔
      thread.paused = true ∨ (thread.poll delta world.shared.globals (Stage.status world.stage)).1 = false ∨
        thread.script.codeEnd ≤ thread.pc := by
  obtain ⟨threads, -, -, hvisits⟩ := ho.exists_visits h
  have hpolled := thread.polled_poll delta world.shared.globals (Stage.status world.stage)
  have hsome : world.shared.options.instructionsPerTick.toNat ≠ 0 := by
    rw [show world.shared.options.instructionsPerTick = m.budget from ho.budget_eq h]
    exact fun hzero => hbudget (UInt32.toNat_inj.mp hzero)
  obtain ⟨budget, hbudget⟩ := Nat.exists_eq_succ_of_ne_zero hsome
  have hrun : m.visits delta stage id = if thread.paused then [] else
      let r := thread.poll delta world.shared.globals (Stage.status world.stage)
      if r.1 then NovelEngine.visits id world.shared.options.instructionsPerTick.toNat r.2 (world.lending threads)
      else [] := hvisits
  rw [hrun, hbudget]
  cases hpaused : thread.paused with
  | true => simp
  | false =>
    revert hpolled
    generalize thread.poll delta world.shared.globals (Stage.status world.stage) = r
    intro hpolled
    cases hpolled with
    | rests hlapse hstate => simp
    | runs result hstate =>
      simp only [Bool.false_eq_true, if_false, if_true, false_or, Bool.true_eq_false]
      rw [NovelEngine.visits]
      split
      · rename_i hend
        exact ⟨fun _ => hend, fun _ => rfl⟩
      · rename_i hend
        simp [hend]

theorem Takes.terminated_of_idle (ho : m.Takes delta stage id world thread o)
    (h : m.Pending wanted m.shared.requests) (hbudget : m.budget ≠ 0) (hb : ∃ b, m.Boundary delta stage id b)
    (hidle : m.visits delta stage id = []) : o.thread.state = .terminated := by
  obtain ⟨hpaused, hpolled⟩ := (ho.exists_boundary_iff h).mp hb
  have hend : thread.script.codeEnd ≤ thread.pc := by
    rcases (ho.visits_eq_nil_iff h hbudget).mp hidle with hyes | hno | hend
    · rw [hpaused] at hyes
      cases hyes
    · rw [hpolled] at hno
      cases hno
    · exact hend
  have hsome : world.shared.options.instructionsPerTick.toNat ≠ 0 := by
    rw [show world.shared.options.instructionsPerTick = m.budget from ho.budget_eq h]
    exact fun hzero => hbudget (UInt32.toNat_inj.mp hzero)
  obtain ⟨budget, hsucc⟩ := Nat.exists_eq_succ_of_ne_zero hsome
  cases ho.fares h with
  | rests hlent hlapse hnone => exact absurd hb (not_exists.mpr hnone)
  | @runs result threads hlent _ _ _ =>
    let found : Thread := { thread with state := .running, result }
    have hfound : found.script.codeEnd ≤ found.pc := hend
    rw [hsucc, runFor_codeEnd hfound]
    rfl

/-- What becomes of a thread in a tick in which it executes nothing. -/
theorem Reachable.idle_tick (h : Reachable options library m) (hbudget : m.budget ≠ 0) (ht : m.thread? id = some t)
    (hidle : m.visits delta stage id = []) (ht' : (m.tick delta stage).value.machine.thread? id = some t') :
    t'.state = .terminated ∨ t'.core = t.core ∧ (t.state.Lapses t'.state ∨ t.state = .suspended) := by
  rcases h.pending.rests_or ht delta stage with ⟨-, state, hlapse, hturned⟩ | ⟨world, o, b, ho, hb⟩
  · obtain ⟨hcore, hstate⟩ := h.pending.state_tick hturned ht'
    refine .inr ⟨hcore, ?_⟩
    rcases hstate with hsame | ⟨hsuspended, -, -⟩
    · exact .inl (hsame ▸ hlapse)
    · obtain rfl : state = .suspended := hsuspended
      generalize t.state = s at hlapse
      cases hlapse
      exact .inr rfl
  · have hended := ho.terminated_of_idle h.pending hbudget ⟨b, hb⟩ hidle
    rcases (h.pending.state_tick (ho.turned h.pending) ht').2 with hsame | ⟨hsuspended, -, -⟩
    · exact .inl (hsame.trans hended)
    · cases hsuspended.symm.trans hended

/-- From the first machine to the second one the thread stays there and executes nothing. -/
inductive Idles (id : ThreadId) (first : Machine) : Machine → Prop
  | refl (hthere : (first.thread? id).isSome = true) : Idles id first first
  | hosts {m m' : Machine} (h : Idles id first m) (hm : m.Hosts m') : Idles id first m'
  | tick {m : Machine} {σ : Type} [Stage σ] (delta : Single) (stage : σ) (h : Idles id first m)
    (hidle : m.visits delta stage id = [])
    (hthere : ((m.tick delta stage).value.machine.thread? id).isSome = true) :
    Idles id first (m.tick delta stage).value.machine

omit [Stage σ] in
theorem Idles.reachable (h : Idles id first m) (hfirst : Reachable options library first) :
    Reachable options library m := by
  induction h with
  | refl hthere => exact hfirst
  | hosts _ hm ih => exact hm.reachable ih
  | tick delta stage _ _ _ ih => exact ih.tick delta stage

omit [Stage σ] in
theorem Idles.there (h : Idles id first m) : (first.thread? id).isSome = true := by
  induction h with
  | refl hthere => exact hthere
  | hosts _ _ ih | tick _ _ _ _ _ ih => exact ih

omit [Stage σ] in
theorem Idles.budget_eq (h : Idles id first m) (hfirst : Reachable options library first) :
    m.budget = first.budget := by
  induction h with
  | refl hthere => rfl
  | hosts _ hm ih => exact hm.budget_eq.trans ih
  | tick delta stage h _ _ ih => exact ((h.reachable hfirst).pending.budget_tick delta stage).trans ih

omit [Stage σ] in
theorem Idles.exists_thread? (h : Idles id first m) (hfirst : Reachable options library first)
    (hbudget : first.budget ≠ 0) (ht₀ : first.thread? id = some t₀) (hstate : t₀.state ≠ .suspended) :
    ∃ t, m.thread? id = some t ∧ (t.state = .terminated ∨ t.core = t₀.core ∧ t₀.state.Lapses t.state) := by
  induction h with
  | refl hthere => exact ⟨t₀, ht₀, .inr ⟨rfl, .refl _⟩⟩
  | hosts h hm ih =>
    obtain ⟨t, ht, hcases⟩ := ih
    exact ⟨t, hm.thread? (h.reachable hfirst) ht, hcases⟩
  | tick delta stage h hidle hthere ih =>
    have hm := h.reachable hfirst
    obtain ⟨t, ht, hcases⟩ := ih
    obtain ⟨t', ht'⟩ := Option.isSome_iff_exists.mp hthere
    refine ⟨t', ht', ?_⟩
    rcases hcases with hended | ⟨hcore, hlapse⟩
    · cases ht'.symm.trans (hm.pending.thread?_of_terminated ht hended hthere)
      exact .inl hended
    · rcases hm.idle_tick (h.budget_eq hfirst ▸ hbudget) ht hidle ht' with hended | ⟨hcore', hlapse' | hsuspended⟩
      · exact .inl hended
      · exact .inr ⟨hcore'.trans hcore, hlapse.trans hlapse'⟩
      · rw [hsuspended] at hlapse
        generalize t₀.state = s at hlapse hstate
        cases hlapse
        exact absurd rfl hstate

theorem Reachable.budget_of_visits (h : Reachable options library m) (hv : (m.visits delta stage id)[n]? = some v) :
    m.budget ≠ 0 := by
  obtain ⟨world, found, threads, thread, o, hruns, hreached⟩ := h.pending.exists_reached hv
  rw [← hruns.takes.budget_eq h.pending]
  intro hzero
  have hlt : n < world.budget.toNat := hreached.lt
  rw [hzero] at hlt
  exact absurd hlt (Nat.not_lt_zero n)

/-- After the last instruction of its turn a thread is left as it is, until it executes the next one. It may also end,
at the end of its code. -/
theorem Reachable.exists_of_last (h : Reachable options library m) (hv : (m.visits delta stage id)[n]? = some v)
    (hlast : (m.visits delta stage id)[n + 1]? = none) (hstate : (v.outcome id).thread.state ≠ .suspended)
    (hidles : Idles id (m.tick delta stage).value.machine m') : ∃ t, m'.thread? id = some t ∧
      (t.state = .terminated ∨ t.core = (v.outcome id).thread.core ∧ (v.outcome id).thread.state.Lapses t.state) := by
  obtain ⟨world, found, threads, thread, o, hruns, hreached⟩ := h.pending.exists_reached hv
  have hbudget : (m.tick delta stage).value.machine.budget ≠ 0 := by
    rw [h.pending.budget_tick]
    exact h.budget_of_visits hv
  rw [hruns.visits_eq] at hlast
  have hleft := hreached.last hlast
  rw [← hruns.outcome_eq] at hleft
  obtain ⟨t₁, ht₁⟩ := Option.isSome_iff_exists.mp hidles.there
  obtain ⟨hcore, hstate₁⟩ := h.pending.state_tick (hruns.takes.turned h.pending) ht₁
  have hsuspended : o.thread.state ≠ .suspended := by
    rcases hleft with hleft | hleft
    · rwa [hleft]
    · rw [hleft]
      exact ThreadState.noConfusion
  have hsame : t₁.state = o.thread.state := hstate₁.resolve_right fun hwoken => hsuspended hwoken.1
  obtain ⟨t, ht, hcases⟩ := hidles.exists_thread? (h.tick delta stage) hbudget ht₁ (hsame ▸ hsuspended)
  refine ⟨t, ht, ?_⟩
  rcases hcases with hended | ⟨hcore', hlapse⟩
  · exact .inl hended
  · rw [hsame] at hlapse
    rcases hleft with hleft | hleft
    · rw [hleft] at hcore hlapse
      exact .inr ⟨hcore'.trans hcore, hlapse⟩
    · rw [hleft] at hlapse
      generalize t.state = s at hlapse ⊢
      cases hlapse
      exact .inl rfl

end Machine
end NovelEngine
