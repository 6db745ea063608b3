import NovelEngine.Proofs.Machine.Composition
import NovelEngine.Proofs.Script.Parsing
import NovelEngine.Proofs.Thread.Tenants

/-!
# Turns in the code

A thread of a parsed script is confined if its position and its frames are in the code. Whatever step of an instruction
it takes, its turn stays in the code of the same script, and new threads are confined like it.
-/
namespace NovelEngine

/-- The thread runs a parsed script and can only get to positions of its code. -/
structure Thread.Confined (t : Thread) : Prop where
  parsed : t.script.Parsed
  pc : t.script.Holds t.pc
  frames : ∀ frame ∈ t.calls.frames, t.script.Holds frame.toNat

/-- All scripts that new threads can run are parsed, and all stored threads are confined. -/
structure Shared.Provided (s : Shared) : Prop where
  buffers : ∀ (i : Nat) (script : Script), s.buffers[i]? = some (some script) → script.Parsed
  threads : s.threads.All Thread.Confined

theorem Shared.Provided.of_eq {s s' : Shared} (h : s.Provided) (hbuffers : s'.buffers = s.buffers)
    (hthreads : s'.threads = s.threads) : s'.Provided :=
  ⟨hbuffers ▸ h.buffers, hthreads ▸ h.threads⟩

theorem Shared.Provided.withThreads {s : Shared} {threads : Arena Thread} (h : s.Provided)
    (hthreads : threads.All Thread.Confined) : ({ s with threads } : Shared).Provided :=
  ⟨h.buffers, hthreads⟩

theorem Thread.Confined.start {script : Script} {index pc : Nat} {label : Int32} (h : script.Parsed)
    (hpc : script.label label = .ok pc) : (Thread.start script index pc).Confined :=
  ⟨h, h.sound.holds_label hpc, nofun⟩

namespace Shared

variable {s s' : Shared}

theorem script?_eq_some {buffer : Int} {n : Nat} {script : Script} (h : s.script? buffer = some (n, script)) :
    s.buffers[n]? = some (some script) := by
  unfold Shared.script? at h
  split at h
  · cases h
  · obtain ⟨slot, hslot, h⟩ := Option.bind_eq_some_iff.mp h
    obtain ⟨script', rfl, heq⟩ := Option.map_eq_some_iff.mp h
    cases heq
    exact hslot

inductive Starts (s : Shared) : Thread → Prop
  | intro {buffer pc : Nat} {script : Script} {label : Int32} (hscript : s.buffers[buffer]? = some (some script))
      (hpc : script.label label = .ok pc) : s.Starts (Thread.start script buffer pc)

theorem exists_starts_of_spawn {buffer : Int} {label : Int32} {id : ThreadId}
    (hspawn : s.spawn buffer label = .ok (id, s')) :
    ∃ thread, s.Starts thread ∧ s.threads.live < s.options.maxThreads ∧ id = (s.threads.insert thread).1 ∧
      s' = { s with threads := (s.threads.insert thread).2 } := by
  unfold Shared.spawn at hspawn
  split at hspawn
  · cases hspawn
  · rename_i index script hscript
    split at hspawn
    · cases hspawn
    · rename_i pc hpc
      split at hspawn
      · cases hspawn
      · rename_i hroom
        cases hspawn
        exact ⟨_, .intro (script?_eq_some hscript) hpc, Nat.lt_of_not_le hroom, rfl, rfl⟩

theorem Provided.confined {thread : Thread} (h : s.Provided) (hthread : s.Starts thread) : thread.Confined := by
  cases hthread with
  | intro hscript hpc => exact .start (h.buffers _ _ hscript) hpc

theorem Provided.spawn {buffer : Int} {label : Int32} {id : ThreadId} (h : s.Provided)
    (hspawn : s.spawn buffer label = .ok (id, s')) : s'.Provided := by
  obtain ⟨thread, hthread, -, -, rfl⟩ := exists_starts_of_spawn hspawn
  exact h.withThreads (h.threads.insert (h.confined hthread))

theorem Provided.set {i : Nat} {script : Script} (h : s.Provided) (hi : i < scriptBufferCount)
    (hscript : script.Parsed) : ({ s with buffers := s.buffers.set i (some script) hi } : Shared).Provided := by
  refine ⟨fun j other hother => ?_, h.threads⟩
  have hget : (s.buffers.set i (some script) hi)[j]? = some (some other) := hother
  rw [Vector.getElem?_set] at hget
  split at hget
  · cases hget
    exact hscript
  · exact h.buffers j other hget

theorem Provided.loadScript {buffer : Int} {id : Int32} {loaded : Bool} (h : s.Provided)
    (hload : (s.loadScript buffer id).value = .ok (loaded, s')) : s'.Provided := by
  unfold Shared.loadScript at hload
  split at hload
  · split at hload
    · cases hload
      exact h
    · split at hload
      · cases hload
        exact h
      · split at hload
        · cases hload
        · rename_i bytes _ script hparse
          cases hload
          exact h.set _ ⟨_, _, hparse⟩
  · cases hload
    exact h

end Shared

variable {σ α β : Type}

/-- The turn is at a position of the code and so are all frames. -/
structure Turn.Inside (t : Turn σ) : Prop where
  parsed : t.thread.script.Parsed
  pc : t.thread.script.Holds t.pc
  frames : ∀ frame ∈ t.thread.calls.frames, t.thread.script.Holds frame.toNat
  provided : t.world.shared.Provided

/-- A turn that goes on in the code of the same script. -/
structure Turn.Steps (t t' : Turn σ) : Prop where
  script_eq : t'.thread.script = t.thread.script
  start_eq : t'.thread.pc = t.thread.pc
  inside : t.Inside → t'.Inside

/-- A turn that goes on and leaves the call stack alone. -/
structure Turn.Walks (t t' : Turn σ) : Prop extends t.Steps t' where
  calls_eq : t'.thread.calls = t.thread.calls

namespace Turn

variable {t t' t'' : Turn σ}

theorem Steps.refl (t : Turn σ) : t.Steps t := ⟨rfl, rfl, fun h => h⟩

theorem Steps.trans (h : t.Steps t') (h' : t'.Steps t'') : t.Steps t'' :=
  ⟨h'.script_eq.trans h.script_eq, h'.start_eq.trans h.start_eq, fun hin => h'.inside (h.inside hin)⟩

theorem Walks.refl (t : Turn σ) : t.Walks t := ⟨.refl t, rfl⟩

theorem Walks.trans (h : t.Walks t') (h' : t'.Walks t'') : t.Walks t'' :=
  ⟨h.toSteps.trans h'.toSteps, h'.calls_eq.trans h.calls_eq⟩

instance : Std.Refl (Walks (σ := σ)) := ⟨.refl⟩

instance : Trans (Walks (σ := σ)) Walks Walks := ⟨.trans⟩

theorem walks_of_eq (hscript : t'.thread.script = t.thread.script) (hstart : t'.thread.pc = t.thread.pc)
    (hcalls : t'.thread.calls = t.thread.calls) (hpc : t.Inside → t.thread.script.Holds t'.pc)
    (hprovided : t.Inside → t'.world.shared.Provided) : t.Walks t' := by
  refine ⟨⟨hscript, hstart, fun h => ⟨?_, ?_, ?_, hprovided h⟩⟩, hcalls⟩
  · rw [hscript]
    exact h.parsed
  · rw [hscript]
    exact hpc h
  · rw [hscript, hcalls]
    exact h.frames

end Turn

namespace Exec

open Turn

theorem walks_of_cursor {t u : Turn σ} {r : Except Defect (β × Cursor)} {f : β × Cursor → α}
    (hthread : u.thread.script = t.thread.script ∧ u.thread.pc = t.thread.pc ∧ u.thread.calls = t.thread.calls)
    (hpc : u.pc = t.pc) (hshared : u.world.shared.buffers = t.world.shared.buffers ∧
      u.world.shared.threads = t.world.shared.threads)
    (hpasses : ∀ p, r = .ok p → ∃ chunk, (t.thread.cursorAt t.pc).Passes chunk p.2) :
    t.Walks ((checked r >>= fun p => setPc p.2.pos >>= fun _ => pure (f p)).result u).2 := by
  rw [result_bind, result_checked]
  obtain ⟨hscript, hstart, hcalls⟩ := hthread
  obtain ⟨hbuffers, hthreads⟩ := hshared
  cases r with
  | error d => exact walks_of_eq hscript hstart hcalls (fun h => hpc ▸ h.pc) fun h => h.provided.of_eq hbuffers hthreads
  | ok p =>
    obtain ⟨chunk, hchunk⟩ := hpasses p rfl
    exact walks_of_eq hscript hstart hcalls (fun h => h.pc.of_passes hchunk) fun h =>
      h.provided.of_eq hbuffers hthreads

theorem Probe.walks {x : Exec σ α} (h : Probe α x) : Along Walks x := by
  intro t
  cases h with
  | get | log => exact .refl t
  | checked r =>
    rw [result_checked]
    exact .refl t
  | expr =>
    let r := evaluate (t.thread.cursorAt t.pc) t.scope
    refine walks_of_cursor (u := t.moved t.pc r.2) (r := r.1) (f := Prod.fst) ⟨rfl, rfl, rfl⟩ rfl ⟨rfl, rfl⟩ ?_
    intro p hp
    exact exists_passes_of_evaluate hp
  | readU8 | readU16 =>
    refine walks_of_cursor (u := t) (f := Prod.fst) ⟨rfl, rfl, rfl⟩ rfl ⟨rfl, rfl⟩ ?_
    intro p hp
    obtain ⟨n, -, -, hpasses⟩ := Cursor.number_ok_iff.mp hp
    exact ⟨_, hpasses⟩
  | jump label =>
    show t.Walks ((Exec.checked (t.thread.script.label label) >>= setPc).result t).2
    rw [result_bind, result_checked]
    cases hlabel : t.thread.script.label label with
    | error d => exact .refl t
    | ok pos => exact walks_of_eq rfl rfl rfl (fun h => h.parsed.sound.holds_label hlabel) fun h => h.provided

theorem walks_loadScript (buffer id : Int32) :
    Along Walks (shared >>= fun s => ExceptT.lift (StateT.lift (s.loadScript buffer.toInt id)) >>= fun r =>
      checked r >>= fun p => setShared p.2 >>= fun _ =>
        setResult (truth p.1) >>= fun _ => pure Flow.next : Exec σ Flow) := by
  intro t
  simp only [result_bind, result_shared, result_lift, result_checked]
  cases hload : (t.world.shared.loadScript buffer.toInt id).value with
  | error d => exact .refl t
  | ok p => exact walks_of_eq rfl rfl rfl (fun h => h.pc) fun h =>
    h.provided.loadScript (show _ = Except.ok (p.1, p.2) from hload)

theorem walks_create (buffer label : Int32) : Along Walks (create buffer label : Exec σ Flow) := by
  intro t
  rw [result_create]
  cases hspawn : t.world.shared.spawn buffer.toInt label with
  | error f => exact .refl t
  | ok p =>
    refine walks_of_eq rfl rfl rfl (fun h => h.pc) fun h => ?_
    have hprovided := h.provided.spawn (show _ = Except.ok (p.1, p.2) from hspawn)
    exact hprovided.of_eq rfl rfl

variable [Stage σ]

theorem Primitive.walks {x : Exec σ α} (h : Primitive α x) : Along Walks x := by
  intro t
  cases h with
  | probe h => exact h.walks t
  | setResult | request | onStage =>
    exact walks_of_eq rfl rfl rfl (fun h => h.pc) fun h => h.provided.of_eq rfl rfl
  | setFlag flag value =>
    simp only [result_bind, result_shared, result_checked]
    cases t.world.shared.globals.setFlag flag.toInt value with
    | error d => exact .refl t
    | ok globals => exact walks_of_eq rfl rfl rfl (fun h => h.pc) fun h => h.provided.of_eq rfl rfl
  | loadScript buffer id => exact walks_loadScript buffer id t

/-- Every instruction but those on calls leaves the frames alone and goes on in the code. -/
theorem walks_run (opcode : UInt16) (i : Instruction) (hcall : i ≠ .call) (hret : i ≠ .ret) :
    Along Walks (i.run opcode : Exec σ Flow) := by
  by_cases hcreate : i = .threadCreate
  · subst hcreate
    exact Probe.expr.walks.bind fun buffer => Probe.expr.walks.bind fun label => walks_create buffer label
  · exact (composed_run opcode i hcall hret hcreate).along Primitive.walks

end Exec
end NovelEngine
