/-!
# Log lines

`Noted α` is a value together with the log lines that were written while it was made. The lines are
kept beside the states of the engine and never inside them, so that two states are equal whatever was
logged on the way.
-/
namespace NovelEngine

inductive Level
  | debug
  | info
  | warn
  | error
  deriving DecidableEq, Inhabited

namespace Level

def name : Level → String
  | debug => "DEBUG"
  | info => "INFO"
  | warn => "WARN"
  | error => "ERROR"

/-- Whether a line of this level is shown to a reader who asked for warnings and worse. -/
def isSerious : Level → Bool
  | debug | info => false
  | warn | error => true

end Level

/-- The part of the engine that writes a line. -/
inductive Topic
  | scheduler
  | control
  | stageInstruction
  | characterInstruction
  | stub
  | loads
  | stage
  | session
  | program
  deriving DecidableEq, Inhabited

namespace Topic

/-- The name that a topic has in printed log lines. -/
def path : Topic → String
  | scheduler => "sc3_vm::vm"
  | control => "sc3_vm::instructions::control"
  | stageInstruction => "sc3_vm::instructions::scene"
  | characterInstruction => "sc3_vm::instructions::graphics3d"
  | stub => "sc3_vm::stub"
  | loads => "sc3_scene::coordinator"
  | stage => "sc3_scene::scene"
  | session => "sc3_runtime::runtime"
  | program => "sc3_runtime"

end Topic

structure Note where
  level : Level
  topic : Topic
  text : String
  deriving DecidableEq, Inhabited

structure Noted (α : Type) where
  value : α
  notes : List Note

namespace Noted

instance : Monad Noted where
  map f x := ⟨f x.value, x.notes⟩
  pure a := ⟨a, []⟩
  bind
    | ⟨a, notes⟩, f =>
      match f a with
      | ⟨b, later⟩ => ⟨b, notes ++ later⟩

@[simp] theorem value_pure {α : Type} (a : α) : (pure a : Noted α).value = a := rfl

@[simp] theorem notes_pure {α : Type} (a : α) : (pure a : Noted α).notes = [] := rfl

@[simp] theorem value_map {α β : Type} (f : α → β) (x : Noted α) : (f <$> x).value = f x.value := rfl

@[simp] theorem notes_map {α β : Type} (f : α → β) (x : Noted α) : (f <$> x).notes = x.notes := rfl

@[simp] theorem value_bind {α β : Type} (x : Noted α) (f : α → Noted β) :
    (x >>= f).value = (f x.value).value := rfl

@[simp] theorem notes_bind {α β : Type} (x : Noted α) (f : α → Noted β) :
    (x >>= f).notes = x.notes ++ (f x.value).notes := rfl

instance : LawfulMonad Noted where
  map_const := rfl
  id_map _ := rfl
  seqLeft_eq x y :=
    congrArg (fun notes => Noted.mk x.value (x.notes ++ notes)) (List.append_nil y.notes)
  seqRight_eq _ _ := rfl
  pure_seq _ _ := rfl
  map_pure _ _ := rfl
  seq_pure x y := congrArg (Noted.mk (x.value y)) (List.append_nil x.notes)
  seq_assoc x g h := congrArg (Noted.mk (h.value (g.value x.value)))
    (List.append_assoc h.notes g.notes x.notes).symm
  bind_pure_comp f x := congrArg (Noted.mk (f x.value)) (List.append_nil x.notes)
  bind_map _ _ := rfl
  pure_bind _ _ := rfl
  bind_assoc x f g := congrArg (Noted.mk (g (f x.value).value).value)
    (List.append_assoc x.notes (f x.value).notes (g (f x.value).value).notes)

def note (level : Level) (topic : Topic) (text : String) : Noted Unit := ⟨(), [⟨level, topic, text⟩]⟩

@[simp] theorem value_note (level : Level) (topic : Topic) (text : String) :
    (note level topic text).value = () := rfl

end Noted
end NovelEngine
