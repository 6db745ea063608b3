import NovelEngine.Proofs.Machine.Confinement
import NovelEngine.Proofs.Machine.Pool

/-!
# Where threads come from

A thread that is there after an instruction and was not there before has been started by it, at a label of the script
that is in a buffer then.
-/
namespace NovelEngine

variable {σ α : Type}

namespace Shared

variable {s s' r : Shared}

/-- Every stored thread was there before or has been started. -/
def Bears (s s' : Shared) : Prop :=
  ∀ id thread, s'.threads.get? id = some thread → s.threads.get? id = some thread ∨ s.Starts thread

theorem bears_of_threads_eq (h : s'.threads = s.threads) : s.Bears s' := by
  intro id thread hget
  rw [h] at hget
  exact .inl hget

theorem Starts.of_buffers_eq {thread : Thread} (h : s.Starts thread) (hbuffers : r.buffers = s.buffers) :
    r.Starts thread := by
  obtain ⟨hscript, hpc⟩ := h
  exact .intro (hbuffers ▸ hscript) hpc

theorem Bears.of_eq (h : s.Bears s') (hthreads : r.threads = s.threads) (hbuffers : r.buffers = s.buffers) :
    r.Bears s' := by
  intro id thread hget
  rw [hthreads]
  exact (h id thread hget).imp_right fun hstarts => hstarts.of_buffers_eq hbuffers

theorem bears_spawn {wanted : Nat} {order pending : List ThreadId} {lent : Option ThreadId} {buffer : Int}
    {label : Int32} {id : ThreadId} (h : s.pool.Consistent wanted order pending lent)
    (hspawn : s.spawn buffer label = .ok (id, s')) : s.Bears s' := by
  obtain ⟨thread, hstarts, hroom, -, rfl⟩ := exists_starts_of_spawn hspawn
  have hinsert := h.wellFormed.insert (h.room hroom) thread
  intro other u hget
  have htenant := (hinsert.tenant?_eq other).symm.trans (Arena.get?_eq_some_iff.mp hget)
  split at htenant
  · cases htenant
    exact .inr hstarts
  · exact .inl (Arena.get?_eq_some_iff.mpr htenant)

end Shared

namespace Exec

variable {wanted : Nat} {order pending : List ThreadId} {lent : Option ThreadId}

theorem exists_shared_expr (t : Turn σ) :
    ∃ globals, (expr.result t).2.world.shared = { t.world.shared with globals } := by
  obtain ⟨pc, scope, hmoved⟩ := Probe.expr.exists_moved t
  exact ⟨scope.globals, congrArg (fun t' => t'.world.shared) hmoved⟩

theorem bears_expr_bind {f : Int32 → Exec σ α} {t : Turn σ}
    (h : t.world.shared.pool.Consistent wanted order pending lent)
    (hf : ∀ a (t' : Turn σ), t'.world.shared.pool.Consistent wanted order pending lent →
      t'.world.shared.Bears ((f a).result t').2.world.shared) :
    t.world.shared.Bears ((expr >>= f).result t).2.world.shared := by
  have hexpr := exists_shared_expr t
  rw [result_bind]
  revert hexpr
  generalize expr.result t = r
  obtain ⟨e | a, t'⟩ := r
  · rintro ⟨globals, heq⟩
    refine Shared.bears_of_threads_eq ?_
    rw [heq]
  · rintro ⟨globals, heq⟩
    dsimp only at heq ⊢
    refine (hf a t' ?_).of_eq ?_ ?_
    · rw [heq]
      exact h
    · rw [heq]
    · rw [heq]

theorem bears_create {t : Turn σ} (h : t.world.shared.pool.Consistent wanted order pending lent)
    (buffer label : Int32) : t.world.shared.Bears ((create buffer label).result t).2.world.shared := by
  rw [result_create]
  cases hspawn : t.world.shared.spawn buffer.toInt label with
  | error f => exact Shared.bears_of_threads_eq rfl
  | ok p =>
    have hp := Shared.bears_spawn h (show _ = Except.ok (p.1, p.2) from hspawn)
    exact fun id thread hget => hp id thread hget

variable [Stage σ]

theorem bears_run (opcode : UInt16) (i : Instruction) {t : Turn σ}
    (h : t.world.shared.pool.Consistent wanted order pending lent) :
    t.world.shared.Bears ((i.run opcode).result t).2.world.shared := by
  refine Instruction.run_induction (P := fun x => ∀ t, t.world.shared.pool.Consistent wanted order pending lent →
    t.world.shared.Bears (x.result t).2.world.shared) ?_ ?_ ?_ ?_ opcode i t h
  · intro x hx t _
    have hpool : (x.result t).2.world.shared.pool = t.world.shared.pool :=
      congrArg Surroundings.toPool (surroundings_eq fun s => hx s t)
    exact Shared.bears_of_threads_eq (congrArg Pool.threads hpool)
  · exact fun f hf t h => bears_expr_bind h hf
  · exact fun r _ t _ => Shared.bears_of_threads_eq rfl
  · exact fun buffer label t h => bears_create h buffer label

end Exec

theorem bears_step [Stage σ] {wanted : Nat} {order pending : List ThreadId} {lent : Option ThreadId} (id : ThreadId)
    (thread : Thread) {world : World σ} (h : world.shared.pool.Consistent wanted order pending lent) :
    world.shared.Bears (step id thread world).value.world.shared :=
  world_step (P := fun w => world.shared.Bears w.shared) (Shared.bears_of_threads_eq rfl)
    (fun opcode i => Exec.bears_run opcode i (t := ⟨thread, thread.pc + 2, world⟩) h) id

end NovelEngine
