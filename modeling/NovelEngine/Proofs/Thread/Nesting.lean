import Mathlib.Data.List.Induction
import NovelEngine.Thread.Basic

/-!
# Calls and returns that nest

The calls and returns that a thread has executed are like brackets. As long as every return has its call, the calls
without a return are the ones whose frames are on the call stack.
-/
namespace NovelEngine

/-- What an executed instruction was to the call stack of its thread. A call stores the position that it returns to. -/
inductive CallEvent
  | called (target : Nat)
  | returned
  | other
  deriving DecidableEq, Inhabited

namespace CallEvent

inductive Balanced : List CallEvent → Prop
  | nil : Balanced []
  | other {rest : List CallEvent} (hrest : Balanced rest) : Balanced (.other :: rest)
  | call (target : Nat) {body rest : List CallEvent} (hbody : Balanced body) (hrest : Balanced rest) :
    Balanced (.called target :: (body ++ .returned :: rest))

/-- Every return has its call, and these are the targets of the calls that have no return, the oldest first. -/
inductive Unmatched : List CallEvent → List Nat → Prop
  | balanced {history : List CallEvent} (h : Balanced history) : Unmatched history []
  | called {earlier body : List CallEvent} {targets : List Nat} (target : Nat) (h : Unmatched earlier targets)
    (hbody : Balanced body) : Unmatched (earlier ++ .called target :: body) (targets ++ [target])

/-- What the events make of a stack of targets, the innermost first. A return needs a target. -/
def replay : List CallEvent → List Nat → Option (List Nat)
  | [], stack => some stack
  | .called target :: rest, stack => replay rest (target :: stack)
  | .returned :: _, [] => none
  | .returned :: rest, _ :: stack => replay rest stack
  | .other :: rest, stack => replay rest stack

variable {earlier earlier' body body' history more : List CallEvent} {targets targets' stack : List Nat}
  {target target' : Nat} {event : CallEvent}

theorem Balanced.append (h : Balanced history) (hmore : Balanced more) : Balanced (history ++ more) := by
  induction h with
  | nil => exact hmore
  | other _ ih => exact ih.other
  | call target hbody _ _ ih =>
    rw [List.cons_append, List.append_assoc, List.cons_append]
    exact .call target hbody ih

theorem Balanced.called_append (h : Balanced body) (target : Nat) : Balanced (.called target :: body ++ [.returned]) :=
  .call target h .nil

theorem Unmatched.append (h : Unmatched history targets) (hmore : Balanced more) :
    Unmatched (history ++ more) targets := by
  cases h with
  | balanced h => exact .balanced (h.append hmore)
  | called target h hbody =>
    rw [List.append_assoc, List.cons_append]
    exact .called target h (hbody.append hmore)

theorem Unmatched.exists_call (h : Unmatched history (targets ++ [target])) : ∃ earlier body,
    history = earlier ++ .called target :: body ∧ Balanced body ∧ Unmatched earlier targets := by
  generalize hall : targets ++ [target] = all at h
  cases h with
  | balanced h => simp at hall
  | called target h hbody =>
    obtain ⟨rfl, hsame⟩ := List.append_inj' hall rfl
    cases hsame
    exact ⟨_, _, rfl, hbody, h⟩

theorem replay_append (history more : List CallEvent) (stack : List Nat) :
    replay (history ++ more) stack = (replay history stack).bind (replay more) := by
  fun_induction replay history stack with
  | case1 stack => rfl
  | case2 target rest stack ih => exact ih
  | case3 rest => rfl
  | case4 rest target stack ih => exact ih
  | case5 rest stack ih => exact ih

theorem Balanced.replay_eq (h : Balanced history) (stack : List Nat) : replay history stack = some stack := by
  induction h generalizing stack with
  | nil => rfl
  | other _ ih => exact ih stack
  | call target _ _ ihbody ihrest =>
    rw [replay, replay_append, ihbody, Option.bind_some, replay, ihrest]

theorem Unmatched.replay_eq (h : Unmatched history targets) : replay history [] = some targets.reverse := by
  induction h with
  | balanced h => exact h.replay_eq []
  | called target _ hbody ih =>
    rw [replay_append, ih, Option.bind_some, replay, hbody.replay_eq, List.reverse_append]
    rfl

theorem exists_of_replay_concat (h : replay (history ++ [event]) [] = some stack) :
    ∃ before, replay history [] = some before ∧ replay [event] before = some stack := by
  rw [replay_append] at h
  exact Option.bind_eq_some_iff.mp h

/-- The calls without a return are what is left on the stack when the history is replayed. -/
theorem unmatched_iff : Unmatched history targets ↔ replay history [] = some targets.reverse := by
  refine ⟨Unmatched.replay_eq, ?_⟩
  intro h
  induction history using List.reverseRecOn generalizing targets with
  | nil =>
    obtain rfl : targets = [] := by simpa [replay] using h.symm
    exact .balanced .nil
  | append_singleton history event ih =>
    obtain ⟨before, hbefore, hevent⟩ := exists_of_replay_concat h
    have hunmatched : Unmatched history before.reverse := ih (by rw [List.reverse_reverse, hbefore])
    cases event with
    | called target =>
      have hnew : target :: before = targets.reverse := Option.some_inj.mp hevent
      rw [List.reverse_eq_iff.mp hnew.symm, List.reverse_cons]
      exact .called target hunmatched .nil
    | other =>
      have hsame : before = targets.reverse := Option.some_inj.mp hevent
      rw [hsame, List.reverse_reverse] at hunmatched
      exact hunmatched.append (.other .nil)
    | returned =>
      cases before with
      | nil => cases hevent
      | cons target before =>
        have hrest : before = targets.reverse := Option.some_inj.mp hevent
        rw [List.reverse_cons, hrest, List.reverse_reverse] at hunmatched
        obtain ⟨earlier, body, rfl, hbody, hearlier⟩ := hunmatched.exists_call
        rw [List.append_assoc]
        exact hearlier.append (hbody.called_append target)

instance (history : List CallEvent) (targets : List Nat) : Decidable (Unmatched history targets) :=
  decidable_of_iff _ unmatched_iff.symm

theorem not_balanced_of_call (hbody : Balanced body) : ¬ Balanced (earlier ++ .called target :: body) := by
  intro h
  have hall := h.replay_eq []
  rw [replay_append] at hall
  obtain ⟨stack, -, hrest⟩ := Option.bind_eq_some_iff.mp hall
  rw [replay, hbody.replay_eq] at hrest
  cases hrest

/-- There is only one call that has nothing but matched calls and returns behind it. -/
theorem call_unique (hbody : Balanced body) (hbody' : Balanced body')
    (h : earlier ++ .called target :: body = earlier' ++ .called target' :: body') :
    earlier = earlier' ∧ target = target' ∧ body = body' := by
  rcases List.append_eq_append_iff.mp h with ⟨between, hearlier, hrest⟩ | ⟨between, hearlier, hrest⟩
  · cases between with
    | nil =>
      cases hrest
      exact ⟨by rw [hearlier, List.append_nil], rfl, rfl⟩
    | cons event between =>
      cases hrest
      exact absurd hbody (not_balanced_of_call hbody')
  · cases between with
    | nil =>
      cases hrest
      exact ⟨by rw [hearlier, List.append_nil], rfl, rfl⟩
    | cons event between =>
      cases hrest
      exact absurd hbody' (not_balanced_of_call hbody)

/-- What an event does to a call stack. -/
inductive Acts : CallEvent → CallStack → CallStack → Prop
  | called (frame : UInt32) (s : CallStack) (hdepth : s.depth < callStackDepth) :
    Acts (.called frame.toNat) s ⟨frame :: s.frames⟩
  | returned (frame : UInt32) (frames : List UInt32) : Acts .returned ⟨frame :: frames⟩ ⟨frames⟩
  | other (s : CallStack) : Acts .other s s

end CallEvent

open CallEvent

namespace CallStack

/-- The frames are those of the calls that have no return yet, and there is room for them. -/
structure Nests (s : CallStack) (history : List CallEvent) : Prop where
  unmatched : Unmatched history (s.frames.reverse.map UInt32.toNat)
  depth_le : s.depth ≤ callStackDepth

variable {s s' : CallStack} {history : List CallEvent} {event : CallEvent} {frame : UInt32} {frames : List UInt32}

theorem nests_empty : empty.Nests [] := ⟨.balanced .nil, Nat.zero_le _⟩

theorem Nests.exists_call (h : (⟨frame :: frames⟩ : CallStack).Nests history) : ∃ earlier body,
    history = earlier ++ .called frame.toNat :: body ∧ Balanced body ∧ (⟨frames⟩ : CallStack).Nests earlier := by
  have hunmatched := h.unmatched
  rw [List.reverse_cons, List.map_append] at hunmatched
  obtain ⟨earlier, body, hhistory, hbody, hearlier⟩ := hunmatched.exists_call
  exact ⟨earlier, body, hhistory, hbody, hearlier, Nat.le_of_succ_le h.depth_le⟩

theorem Nests.acts (h : s.Nests history) (hacts : event.Acts s s') : s'.Nests (history ++ [event]) := by
  cases hacts with
  | called frame s hdepth =>
    refine ⟨?_, hdepth⟩
    rw [List.reverse_cons, List.map_append]
    exact .called frame.toNat h.unmatched .nil
  | returned frame frames =>
    obtain ⟨earlier, body, rfl, hbody, hearlier⟩ := h.exists_call
    refine ⟨?_, hearlier.depth_le⟩
    rw [List.append_assoc]
    exact hearlier.unmatched.append (hbody.called_append frame.toNat)
  | other s => exact ⟨h.unmatched.append (.other .nil), h.depth_le⟩

end CallStack
end NovelEngine
