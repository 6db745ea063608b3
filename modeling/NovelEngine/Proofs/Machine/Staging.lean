import NovelEngine.Proofs.Machine.Calls

/-!
# What scripts do to the stage

Scripts reach the stage through intents alone: wherever a tick stands, its stage is the one it began with after
some intents, one after another.
-/
namespace NovelEngine

variable {σ : Type} [Stage σ]

open Stage

theorem leads_step (id : ThreadId) (thread : Thread) (world : World σ) :
    Leads world.stage (step id thread world).value.world.stage :=
  world_step (P := fun w => Leads world.stage w.stage) (.refl _)
    (fun opcode i => (Exec.acts_run opcode i ⟨thread, thread.pc + 2, world⟩).stage) id

theorem leads_runFor (id : ThreadId) (budget : Nat) (thread : Thread) (world : World σ) :
    Leads world.stage (runFor id budget thread world).value.world.stage :=
  world_runFor (P := fun w => Leads world.stage w.stage) (fun thread w h => h.trans (leads_step id thread w)) budget
    thread (.refl _)

theorem leads_turn (delta : Single) (id : ThreadId) (thread : Thread) (world : World σ) :
    Leads world.stage (turn delta id thread world).value.world.stage :=
  world_turn (P := fun w => Leads world.stage w.stage) (fun thread w h => h.trans (leads_step id thread w)) delta
    thread (.refl _)

theorem leads_turns (delta : Single) (ids : List ThreadId) (world : World σ) :
    Leads world.stage (turns delta ids world).value.world.stage := by
  induction ids generalizing world with
  | nil => exact .refl _
  | cons id ids ih =>
    rw [turns_cons_value]
    split
    · exact ih world
    · rename_i thread threads _
      have hturn := leads_turn delta id thread { world with shared.threads := threads }
      dsimp only
      split
      · exact hturn
      · exact hturn.trans (ih _)

end NovelEngine
