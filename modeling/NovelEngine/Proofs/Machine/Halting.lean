import NovelEngine.Proofs.Machine.Failures
import NovelEngine.Proofs.Machine.Isolation

/-!
# Ticks that halt

A defect stops the tick at the instruction that has met it. The thread of that instruction stands where the instruction
started and is what it was then, but for variables that the operands wrote and the frame of a call that has missed its
label. The threads behind it in the run order have not had their turns, nothing of what has been asked for is done, and
all of it waits on.
-/
namespace NovelEngine

variable {σ : Type} [Stage σ] {id : ThreadId} {thread : Thread} {world : World σ} {halt : Halt} {delta : Single}

def TurnOutcome.closing (b : TurnOutcome σ) (s : StepOutcome σ) : TurnOutcome σ :=
  { s.last with executed := b.executed + s.last.executed }

theorem exists_closing_of_runFor {budget : Nat}
    (h : (runFor id budget thread world).value.halt ≠ none ∨ (runFor id budget thread world).value.faulted ≠ 0) :
    ∃ executed < budget, let b := (runFor id executed thread world).value
      b.halt = none ∧ (runFor id budget thread world).value = b.closing (step id b.thread b.world).value := by
  induction budget generalizing thread world with
  | zero => simp [runFor_zero_value] at h
  | succ budget ih =>
    by_cases hend : thread.script.codeEnd ≤ thread.pc
    · rw [runFor_codeEnd hend] at h
      simp at h
    by_cases hnext : (step id thread world).value.ending = .went .next
    · rw [runFor_next hend hnext] at h ⊢
      obtain ⟨executed, hlt, hb, ho⟩ := ih h
      refine ⟨executed + 1, Nat.succ_lt_succ hlt, ?_⟩
      rw [runFor_next hend hnext, ho]
      refine ⟨hb, ?_⟩
      simp [TurnOutcome.closing, TurnOutcome.afterStep, Nat.add_right_comm]
    · rw [runFor_last hend hnext]
      refine ⟨0, Nat.succ_pos budget, rfl, ?_⟩
      simp [TurnOutcome.closing, runFor_zero_value]

omit [Stage σ] in
theorem TurnOutcome.closing_of_halt {b : TurnOutcome σ} {s : StepOutcome σ} (h : (b.closing s).halt = some halt) :
    s.ending = .halted halt ∧ b.closing s = ⟨s.thread, s.world, b.executed, 0, some halt⟩ := by
  obtain ⟨_ | _ | _, thread, world⟩ := s <;> cases h
  exact ⟨rfl, rfl⟩

omit [Stage σ] in
theorem TurnOutcome.closing_of_faulted {b : TurnOutcome σ} {s : StepOutcome σ} (h : (b.closing s).faulted ≠ 0) :
    s.ending = .faulted ∧ b.closing s = ⟨s.thread, s.world, b.executed + 1, 1, none⟩ := by
  obtain ⟨_ | _ | _, thread, world⟩ := s
  · exact absurd rfl h
  · exact ⟨rfl, rfl⟩
  · exact absurd rfl h

/-- Turns that halt have been halted by one of them, and the later ones have not been taken. -/
theorem exists_halts_of_turns {ids : List ThreadId} (h : (turns delta ids world).value.result = .error halt) :
    ∃ before id rest w counts thread threads, ids = before ++ id :: rest ∧
      (turns delta before world).value = ⟨w, .ok counts⟩ ∧ w.shared.threads.checkout id = some (thread, threads) ∧
      let o := (turn delta id thread (w.lending threads)).value
      o.halt = some halt ∧ (turns delta ids world).value = ⟨o.back id, .error halt⟩ := by
  induction ids generalizing world with
  | nil => cases h
  | cons id ids ih =>
    cases hlent : world.shared.threads.checkout id with
    | none =>
      have hskip (ids : List ThreadId) : (turns delta (id :: ids) world).value = (turns delta ids world).value := by
        rw [turns_cons_value, hlent]
      rw [hskip] at h ⊢
      obtain ⟨before, other, rest, w, counts, thread, threads, rfl, hbefore, hrest⟩ := ih h
      exact ⟨id :: before, other, rest, w, counts, thread, threads, rfl, (hskip before).trans hbefore, hrest⟩
    | some p =>
      obtain ⟨thread, threads⟩ := p
      have hcons (ids : List ThreadId) := turns_cons_of_checkout delta ids hlent
      cases hhalt : (turn delta id thread (world.lending threads)).value.halt with
      | some other =>
        have hturns : (turns delta (id :: ids) world).value =
            ⟨(turn delta id thread (world.lending threads)).value.back id, .error other⟩ := by
          rw [hcons]
          simp only [hhalt]
        rw [hturns] at h
        cases h
        exact ⟨[], id, ids, world, (0, 0), thread, threads, rfl, rfl, hlent, hhalt, hturns⟩
      | none =>
        have hnext (ids : List ThreadId) : (turns delta (id :: ids) world).value =
            TurnsOutcome.afterTurn (turn delta id thread (world.lending threads)).value
              (turns delta ids ((turn delta id thread (world.lending threads)).value.back id)).value := by
          rw [hcons]
          simp only [hhalt]
        rw [hnext] at h ⊢
        have herror : (turns delta ids ((turn delta id thread (world.lending threads)).value.back id)).value.result =
            .error halt := by
          revert h
          generalize (turns delta ids ((turn delta id thread (world.lending threads)).value.back id)).value = rest
          obtain ⟨w, _ | counts⟩ := rest
          · exact fun h => h
          · intro h
            cases h
        obtain ⟨before, other, rest, w, counts, thread', threads', rfl, hbefore, hlent', hhalt', hall⟩ := ih herror
        let o := (turn delta id thread (world.lending threads)).value
        have hfirst : (turns delta (id :: before) world).value =
            ⟨w, .ok (o.executed + counts.1, o.faulted + counts.2)⟩ := by
          rw [hnext, hbefore]
          rfl
        refine ⟨id :: before, other, rest, w, _, thread', threads', rfl, hfirst, hlent', hhalt', ?_⟩
        rw [hall]
        rfl

namespace Machine

variable {m : Machine} {stage : σ} {o : TurnOutcome σ} {wanted : Nat} {options : MachineOptions}
  {library : Option ScriptLibrary}

/-- A turn that meets a defect or a fault has come to the boundary before the step that closes it. -/
theorem Takes.exists_boundary_closing (ho : m.Takes delta stage id world thread o)
    (h : o.halt ≠ none ∨ o.faulted ≠ 0) :
    ∃ b, m.Boundary delta stage id b ∧ b.halt = none ∧ o = b.closing (step id b.thread b.world).value := by
  obtain @⟨_, _, _, _, _, threads, horder, hbefore, hlent⟩ := ho
  rw [turn_value] at h ⊢
  cases hpaused : thread.paused with
  | true => simp [hpaused] at h
  | false =>
    simp only [hpaused, Bool.false_eq_true, if_false] at h ⊢
    cases hpolled : (thread.poll delta world.shared.globals (Stage.status world.stage)).1 with
    | false =>
      have hblocked : (thread.poll delta (world.lending threads).shared.globals
          (Stage.status (world.lending threads).stage)).1 = false := hpolled
      simp [hblocked] at h
    | true =>
      have hruns : (thread.poll delta (world.lending threads).shared.globals
          (Stage.status (world.lending threads).stage)).1 = true := hpolled
      rw [hruns, if_pos rfl] at h ⊢
      obtain ⟨executed, hlt, hb, ho⟩ := exists_closing_of_runFor h
      exact ⟨_, .intro horder hbefore hlent hpaused hpolled (Nat.le_of_lt hlt), hb, ho⟩

end Machine
end NovelEngine
