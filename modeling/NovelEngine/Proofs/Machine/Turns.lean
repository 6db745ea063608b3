import NovelEngine.Proofs.Machine.Preemption
import NovelEngine.Proofs.Machine.Whereabouts
import NovelEngine.Proofs.Thread.Gains

/-!
# The turns of a tick

The turns of a tick come one after another, each with one thread lent out. A thread is in its place as the tick has
found it until its own turn, and from then on as that turn has left it. Other turns only add threads to the arena.
-/
namespace NovelEngine

variable {σ : Type} {wanted : Nat} {order pending : List ThreadId} {lent : Option ThreadId} {id other : ThreadId}
  {thread t : Thread} {threads : Arena Thread}

/-- The second pool has come of the first one by starting some threads, of which the last one comes first. -/
structure Pool.Begets (p : Pool) (news : List (ThreadId × Thread)) (q : Pool) : Prop where
  gains : p.threads.Gains news q.threads
  queued : spawned q.requests = news.map Prod.fst ++ spawned p.requests
  started : ∀ n ∈ news, ∃ script buffer pc, n.2 = Thread.start script buffer pc

namespace Pool

variable {p q r : Pool} {news more : List (ThreadId × Thread)}

theorem Begets.refl (p : Pool) : p.Begets [] p := ⟨.refl _, rfl, nofun⟩

theorem Begets.trans (h : p.Begets news q) (h' : q.Begets more r) : p.Begets (more ++ news) r := by
  refine ⟨h.gains.trans h'.gains, ?_, ?_⟩
  · rw [h'.queued, h.queued, List.map_append, List.append_assoc]
  · intro n hn
    rcases List.mem_append.mp hn with hn | hn
    · exact h'.started n hn
    · exact h.started n hn

theorem Consistent.begets (h : p.Consistent wanted order pending lent) (hasks : p.Asks q)
    (hstarted : ∀ id thread, q.threads.get? id = some thread → p.threads.get? id = some thread ∨
      ∃ script buffer pc, thread = Thread.start script buffer pc) : ∃ news, p.Begets news q := by
  cases hasks with
  | nothing => exact ⟨[], .refl p⟩
  | request r hr =>
    have hqueued : spawned (r :: p.requests) = spawned p.requests := by
      cases r with
      | spawn id => exact absurd rfl (hr id)
      | kill handle | pause handle | resume handle => rfl
    exact ⟨[], .refl _, hqueued, nofun⟩
  | spawn thread hroom =>
    have hgains := h.wellFormed.gains_insert (h.room hroom) thread
    have hthere := hgains.there _ (List.mem_singleton_self _)
    refine ⟨[((p.threads.insert thread).1, thread)], hgains, rfl, ?_⟩
    intro n hn
    obtain rfl := List.mem_singleton.mp hn
    rcases hstarted _ _ hthere with hold | hstart
    · rw [Arena.get?_eq, (h.wellFormed.insert (h.room hroom) thread).fresh] at hold
      cases hold
    · exact hstart

end Pool

section

variable [Stage σ] {world : World σ}

theorem begets_step (id : ThreadId) (thread : Thread) (h : world.Consistent wanted order lent) :
    ∃ news, world.shared.pool.Begets news (step id thread world).value.world.shared.pool := by
  apply Pool.Consistent.begets h (asks_step id thread world)
  intro other u hu
  rcases bears_step id thread h other u hu with hold | ⟨-, -⟩
  · exact .inl hold
  · exact .inr ⟨_, _, _, rfl⟩

/-- The books of the second world are in order, and its pool has come of that of the first one. -/
def World.Grows (wanted : Nat) (order : List ThreadId) (lent : Option ThreadId) (start world : World σ) : Prop :=
  world.Consistent wanted order lent ∧ ∃ news, start.shared.pool.Begets news world.shared.pool

theorem World.Grows.step {start : World σ} (id : ThreadId) (thread : Thread) (world : World σ)
    (h : start.Grows wanted order lent world) : start.Grows wanted order lent (step id thread world).value.world := by
  obtain ⟨hbooks, news, hbegets⟩ := h
  obtain ⟨more, hmore⟩ := begets_step id thread hbooks
  exact ⟨consistent_step id thread world hbooks, more ++ news, hbegets.trans hmore⟩

theorem begets_runFor (id : ThreadId) (budget : Nat) (thread : Thread) (h : world.Consistent wanted order lent) :
    ∃ news, world.shared.pool.Begets news (runFor id budget thread world).value.world.shared.pool := by
  have hstart : world.Grows wanted order lent world := ⟨h, [], .refl _⟩
  exact (world_runFor (World.Grows.step id) budget thread hstart).2

theorem begets_turn (delta : Single) (id : ThreadId) (thread : Thread) (h : world.Consistent wanted order lent) :
    ∃ news, world.shared.pool.Begets news (turn delta id thread world).value.world.shared.pool := by
  have hstart : world.Grows wanted order lent world := ⟨h, [], .refl _⟩
  exact (world_turn (World.Grows.step id) delta thread hstart).2

end

/-- What is shared after a turn, with the other threads as they were and some new ones. -/
structure Shared.Begets (s : Shared) (own : ThreadId) (news : List (ThreadId × Thread)) (s' : Shared) : Prop where
  queued : spawned s'.requests = news.map Prod.fst ++ spawned s.requests
  started : ∀ n ∈ news, ∃ script buffer pc, n.2 = Thread.start script buffer pc
  there : ∀ n ∈ news, s'.threads.get? n.1 = some n.2
  place : ∀ i, i ≠ own.index.toNat → s'.threads.cellAt? i = s.threads.cellAt? i ∨
    ∃ n ∈ news, n.1.index.toNat = i ∧ Cell.Vacant n.1.generation (s.threads.cellAt? i) ∧
      s'.threads.cellAt? i = some ⟨n.1.generation, .occupied n.2⟩

def World.lending (world : World σ) (threads : Arena Thread) : World σ := { world with shared.threads := threads }

def TurnOutcome.back (o : TurnOutcome σ) (id : ThreadId) : World σ :=
  { o.world with shared := Machine.returned id o }

section

variable {world : World σ} {o : TurnOutcome σ}

theorem lending_consistent (h : world.Consistent wanted order none)
    (hlent : world.shared.threads.checkout id = some (thread, threads)) :
    (world.lending threads).Consistent wanted order (some id) :=
  Pool.Consistent.checkout h hlent

theorem back_consistent (h : o.world.Consistent wanted order (some id)) :
    (o.back id).Consistent wanted order none :=
  Pool.Consistent.checkin h o.thread

theorem get?_returned (h : o.world.Consistent wanted order (some id)) (other : ThreadId) :
    (Machine.returned id o).threads.get? other =
      if other = id then some o.thread else o.world.shared.threads.get? other := by
  have hown : o.world.shared.threads.tenant? id = some .lent := (h.lent_iff id).mpr rfl
  have hback := (Arena.replaces_checkin hown o.thread).tenant?_eq other
  show (o.world.shared.threads.checkin id o.thread).get? other = _
  rw [Arena.get?_eq, hback]
  split
  · rfl
  · exact (Arena.get?_eq _ _).symm

theorem get?_lending (hlent : world.shared.threads.checkout id = some (thread, threads)) (hne : other ≠ id) :
    threads.get? other = world.shared.threads.get? other := by
  rw [Arena.get?_eq, (Arena.checkout_eq_some hlent).2.tenant?_eq, if_neg hne, ← Arena.get?_eq]

end

section

variable [Stage σ] {world w : World σ} {ids before rest : List ThreadId} {counts : Nat × Nat}

theorem turns_cons_of_checkout (delta : Single) (ids : List ThreadId)
    (hlent : world.shared.threads.checkout id = some (thread, threads)) :
    (turns delta (id :: ids) world).value =
      let o := (turn delta id thread (world.lending threads)).value
      match o.halt with
      | some halt => ⟨o.back id, .error halt⟩
      | none => TurnsOutcome.afterTurn o (turns delta ids (o.back id)).value := by
  rw [turns_cons_value, hlent]
  rfl

theorem begets_back (delta : Single) (h : world.Consistent wanted order none)
    (hlent : world.shared.threads.checkout id = some (thread, threads)) :
    ∃ news, world.shared.Begets id news
      (Machine.returned id (turn delta id thread (world.lending threads)).value) := by
  have hbooks := lending_consistent h hlent
  obtain ⟨news, hturn⟩ := begets_turn delta id thread hbooks
  have hafter := consistent_turn delta id thread hbooks
  revert hturn hafter
  generalize (turn delta id thread (world.lending threads)).value = o
  intro hturn hafter
  refine ⟨news, hturn.queued, hturn.started, ?_, ?_⟩
  · intro n hn
    have hthere : o.world.shared.threads.get? n.1 = some n.2 := hturn.gains.there n hn
    have hown : o.world.shared.threads.tenant? id = some .lent := (hafter.lent_iff id).mpr rfl
    have hne : n.1 ≠ id := by
      intro heq
      rw [heq, Arena.get?_eq_some_iff, hown] at hthere
      cases hthere
    rw [get?_returned hafter, if_neg hne, hthere]
  · intro i hi
    have hback : (Machine.returned id o).threads.cellAt? i = o.world.shared.threads.cellAt? i :=
      Arena.cellAt?_checkin _ _ _ hi
    rw [hback, ← Arena.cellAt?_checkout hlent hi]
    exact hturn.gains.place i

theorem get?_runFor (id : ThreadId) (budget : Nat) (thread : Thread) (h : world.Consistent wanted order lent)
    (hget : world.shared.threads.get? other = some t) :
    (runFor id budget thread world).value.world.shared.threads.get? other = some t := by
  obtain ⟨news, hrun⟩ := begets_runFor id budget thread h
  exact hrun.gains.get? hget

theorem get?_back (delta : Single) (h : world.Consistent wanted order none)
    (hlent : world.shared.threads.checkout id = some (thread, threads)) (hne : other ≠ id)
    (hget : world.shared.threads.get? other = some t) :
    (Machine.returned id (turn delta id thread (world.lending threads)).value).threads.get? other = some t := by
  have hbooks := lending_consistent h hlent
  obtain ⟨news, hturn⟩ := begets_turn delta id thread hbooks
  rw [get?_returned (consistent_turn delta id thread hbooks), if_neg hne]
  exact hturn.gains.get? ((get?_lending hlent hne).trans hget)

theorem get?_back_self (delta : Single) (h : world.Consistent wanted order none)
    (hlent : world.shared.threads.checkout id = some (thread, threads)) :
    (Machine.returned id (turn delta id thread (world.lending threads)).value).threads.get? id =
      some (turn delta id thread (world.lending threads)).value.thread := by
  rw [get?_returned (consistent_turn delta id thread (lending_consistent h hlent)), if_pos rfl]

theorem turns_consistent_back (delta : Single) (h : world.Consistent wanted order none)
    (hlent : world.shared.threads.checkout id = some (thread, threads)) :
    ((turn delta id thread (world.lending threads)).value.back id).Consistent wanted order none :=
  back_consistent (consistent_turn delta id thread (lending_consistent h hlent))

theorem get?_turns_new (delta : Single) (h : world.Consistent wanted order none) (hmem : other ∉ ids)
    (hget : (turns delta ids world).value.world.shared.threads.get? other = some t) :
    world.shared.threads.get? other = some t ∨ ∃ script buffer pc, t = Thread.start script buffer pc := by
  induction ids generalizing world with
  | nil => exact .inl hget
  | cons id ids ih =>
    simp only [List.mem_cons, not_or] at hmem
    obtain ⟨hne, hmem⟩ := hmem
    cases hlent : world.shared.threads.checkout id with
    | none =>
      rw [turns_cons_value, hlent] at hget
      exact ih h hmem hget
    | some p =>
      obtain ⟨thread, threads⟩ := p
      have hback := turns_consistent_back delta h hlent
      have hafter := consistent_turn delta id thread (lending_consistent h hlent)
      obtain ⟨news, hturn⟩ := begets_turn delta id thread (lending_consistent h hlent)
      rw [turns_cons_of_checkout delta ids hlent] at hget
      revert hget hback hafter hturn
      generalize (turn delta id thread (world.lending threads)).value = o
      intro hget hback hafter hturn
      have hown (hthere : (o.back id).shared.threads.get? other = some t) :
          world.shared.threads.get? other = some t ∨ ∃ script buffer pc, t = Thread.start script buffer pc := by
        replace hthere : (Machine.returned id o).threads.get? other = some t := hthere
        rw [get?_returned hafter, if_neg hne] at hthere
        rcases hturn.gains.get?_or hthere with hold | hnew
        · exact .inl ((get?_lending hlent hne).symm.trans hold)
        · exact .inr (hturn.started _ hnew)
      dsimp only at hget
      cases hhalt : o.halt with
      | some halt =>
        rw [hhalt] at hget
        exact hown hget
      | none =>
        rw [hhalt] at hget
        rcases ih hback hmem hget with hold | hstarted
        · exact hown hold
        · exact .inr hstarted

theorem get?_turns_or (delta : Single) (ids : List ThreadId) (h : world.Consistent wanted order none)
    (hget : world.shared.threads.get? other = some t) :
    (turns delta ids world).value.world.shared.threads.get? other = some t ∨
      ∃ before rest w counts threads, ids = before ++ other :: rest ∧
        (turns delta before world).value = ⟨w, .ok counts⟩ ∧
        w.shared.threads.checkout other = some (t, threads) := by
  induction ids generalizing world with
  | nil => exact .inl hget
  | cons id ids ih =>
    cases hlent : world.shared.threads.checkout id with
    | none =>
      have hskip (ids : List ThreadId) : (turns delta (id :: ids) world).value = (turns delta ids world).value := by
        rw [turns_cons_value, hlent]
      rw [hskip]
      rcases ih h hget with hsame | ⟨before, rest, w, counts, threads, rfl, hbefore, hown⟩
      · exact .inl hsame
      · exact .inr ⟨id :: before, rest, w, counts, threads, rfl, (hskip before).trans hbefore, hown⟩
    | some p =>
      obtain ⟨thread, threads⟩ := p
      by_cases hid : id = other
      · subst hid
        obtain rfl := Option.some_inj.mp ((Arena.get?_of_checkout hlent).symm.trans hget)
        exact .inr ⟨[], ids, world, (0, 0), threads, rfl, rfl, hlent⟩
      · have hback := turns_consistent_back delta h hlent
        have hkept := get?_back delta h hlent (Ne.symm hid) hget
        have hcons (ids : List ThreadId) := turns_cons_of_checkout delta ids hlent
        rw [hcons]
        revert hback hkept hcons
        generalize (turn delta id thread (world.lending threads)).value = o
        intro hback hkept hcons
        dsimp only at hcons ⊢
        cases hhalt : o.halt with
        | some halt => exact .inl hkept
        | none =>
          rcases ih hback hkept with hsame | ⟨before, rest, w, counts, threads', rfl, hbefore, hown⟩
          · exact .inl hsame
          · have hcounts : (turns delta (id :: before) world).value =
                ⟨w, .ok (o.executed + counts.1, o.faulted + counts.2)⟩ := by
              rw [hcons, hhalt]
              dsimp only
              rw [hbefore]
              rfl
            exact .inr ⟨id :: before, rest, w, _, threads', rfl, hcounts, hown⟩

theorem get?_turns_of_not_mem (delta : Single) (h : world.Consistent wanted order none)
    (hget : world.shared.threads.get? other = some t) (hmem : other ∉ ids) :
    (turns delta ids world).value.world.shared.threads.get? other = some t := by
  rcases get?_turns_or delta ids h hget with hsame | ⟨before, rest, w, counts, threads, rfl, -, -⟩
  · exact hsame
  · simp at hmem

theorem get?_turns_self (delta : Single) (h : world.Consistent wanted order none)
    (hlent : world.shared.threads.checkout id = some (thread, threads)) (hid : id ∉ rest) :
    (turns delta (id :: rest) world).value.world.shared.threads.get? id =
      some (turn delta id thread (world.lending threads)).value.thread := by
  have hback := turns_consistent_back delta h hlent
  have hself := get?_back_self delta h hlent
  rw [turns_cons_of_checkout delta rest hlent]
  revert hback hself
  generalize (turn delta id thread (world.lending threads)).value = o
  intro hback hself
  dsimp only
  cases o.halt with
  | some halt => exact hself
  | none => exact get?_turns_of_not_mem delta hback hself hid

end

namespace Machine

variable [Stage σ] {m : Machine} {delta : Single} {stage : σ} {world : World σ} {o : TurnOutcome σ}

/-- In a tick the thread `id` has a turn, which finds it as `thread` in `world` and comes to `o`. -/
inductive Takes (m : Machine) (delta : Single) (stage : σ) (id : ThreadId) :
    World σ → Thread → TurnOutcome σ → Prop
  | intro {before rest : List ThreadId} {w : World σ} {counts : Nat × Nat} {thread : Thread}
      {threads : Arena Thread} (horder : m.order = before ++ id :: rest)
      (hbefore : (turns delta before ⟨m.shared, stage⟩).value = ⟨w, .ok counts⟩)
      (hlent : w.shared.threads.checkout id = some (thread, threads)) :
      Takes m delta stage id w thread (turn delta id thread (w.lending threads)).value

theorem Pending.not_mem_of_order {before rest : List ThreadId} (h : m.Pending wanted m.shared.requests)
    (horder : m.order = before ++ id :: rest) : id ∉ before ∧ id ∉ rest := by
  have hnodup : m.order.Nodup := (List.nodup_append.mp h.nodup).1
  rw [horder] at hnodup
  obtain ⟨-, hrest, hdisjoint⟩ := List.nodup_append.mp hnodup
  constructor
  · intro hmem
    exact hdisjoint id hmem id List.mem_cons_self rfl
  · exact (List.nodup_cons.mp hrest).1

theorem Takes.consistent (ho : m.Takes delta stage id world thread o) (h : m.Pending wanted m.shared.requests) :
    world.Consistent wanted m.order none := by
  obtain ⟨-, hbefore, -⟩ := ho
  exact h.consistent_turns hbefore

theorem Takes.exists_lent (ho : m.Takes delta stage id world thread o) :
    ∃ threads, world.shared.threads.checkout id = some (thread, threads) ∧
      o = (turn delta id thread (world.lending threads)).value := by
  obtain ⟨-, -, hlent⟩ := ho
  exact ⟨_, hlent, rfl⟩

theorem Takes.mem_order (ho : m.Takes delta stage id world thread o) : id ∈ m.order := by
  obtain ⟨horder, -, -⟩ := ho
  simp [horder]

theorem Pending.exists_thread? (h : m.Pending wanted m.shared.requests) (hid : id ∈ m.order) :
    ∃ thread, m.thread? id = some thread :=
  h.exists_get? ((h.contains_iff id).mpr (.inl hid))

/-- A turn finds its thread as the tick has found it. -/
theorem Takes.thread? (ho : m.Takes delta stage id world thread o) (h : m.Pending wanted m.shared.requests) :
    m.thread? id = some thread := by
  obtain ⟨t, ht⟩ := h.exists_thread? ho.mem_order
  obtain @⟨before, rest, w, counts, thread, threads, horder, hbefore, hlent⟩ := ho
  have hid := (h.not_mem_of_order horder).1
  have hstart : World.Consistent ⟨m.shared, stage⟩ wanted m.order none := h
  have hkept := get?_turns_of_not_mem delta hstart ht hid
  rw [hbefore, Arena.get?_of_checkout hlent] at hkept
  rw [ht, hkept]

/-- The turns leave a thread as its own turn has left it. -/
theorem Takes.turned (ho : m.Takes delta stage id world thread o) (h : m.Pending wanted m.shared.requests) :
    (m.turned delta stage).thread? id = some o.thread := by
  have hw := ho.consistent h
  obtain @⟨before, rest, w, counts, thread, threads, horder, hbefore, hlent⟩ := ho
  have hid := (h.not_mem_of_order horder).2
  rw [Machine.thread?, turned_shared, dusk, horder, world_turns_append delta hbefore]
  exact get?_turns_self delta hw hlent hid

theorem Pending.turned_or (h : m.Pending wanted m.shared.requests) (hthread : m.thread? id = some thread) :
    (m.turned delta stage).thread? id = some thread ∨ ∃ world o, m.Takes delta stage id world thread o := by
  have hstart : World.Consistent ⟨m.shared, stage⟩ wanted m.order none := h
  rw [Machine.thread?, turned_shared, dusk]
  rcases get?_turns_or delta m.order hstart hthread with hsame | ⟨_, _, w, _, _, horder, hbefore, hlent⟩
  · exact .inl hsame
  · exact .inr ⟨w, _, .intro horder hbefore hlent⟩

end Machine
end NovelEngine
