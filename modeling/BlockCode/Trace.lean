import BlockCode.Failure
import BlockCode.Node

/- Runs that log events and may fail. `Traced α` is a value of `α` or a failure,
   with the events up to that point; events are only ever added at the end.
   `andThen_eq_of_ok` and `andThen_eq_of_error` say how a run goes on, and the
   monad laws hold. -/
namespace BlockCode
universe u v

/-- What a compilation reports while it runs. -/
inductive Event where
  | resolving (slot : String) (context : Precedence)
  | substituting (slot : String) (context : Precedence)
  | compiled (kind : Kind) (length : Nat) (precedence : Precedence)
  deriving DecidableEq

namespace Event

/-- How much detail is asked for when the event is shown. -/
def level : Event → String
  | resolving .. | substituting .. => "TRACE"
  | compiled .. => "DEBUG"

def message : Event → String
  | resolving .. => "resolving operand"
  | substituting .. => "empty slot, substituting 0"
  | compiled .. => "compiled block tree"

def details : Event → List (String × String)
  | resolving slot context | substituting slot context => [("slot", slot), ("context", context.name)]
  | compiled kind length precedence =>
    [("kind", kind.blockType), ("len", toString length), ("order", precedence.name)]

end Event

/-- The events of a run and how it ended. -/
structure Traced (α : Type u) where
  events : List Event
  result : Except Failure α

namespace Traced

/-- Goes on with the value of a run; a failure ends it. -/
def andThen {α : Type u} {β : Type v} (x : Traced α) (f : α → Traced β) : Traced β :=
  match x.result with
  | .error e => ⟨x.events, .error e⟩
  | .ok a =>
    let y := f a
    ⟨x.events ++ y.events, y.result⟩

instance : Monad Traced where
  pure a := ⟨[], .ok a⟩
  bind := andThen

theorem andThen_eq_of_ok {α : Type u} {β : Type v} {x : Traced α} {a : α} (h : x.result = .ok a)
    (f : α → Traced β) : x.andThen f = ⟨x.events ++ (f a).events, (f a).result⟩ := by
  rw [andThen, h]

theorem andThen_eq_of_error {α : Type u} {β : Type v} {x : Traced α} {e : Failure}
    (h : x.result = .error e) (f : α → Traced β) : x.andThen f = ⟨x.events, .error e⟩ := by
  rw [andThen, h]

theorem andThen_assoc {α β γ : Type u} (x : Traced α) (f : α → Traced β) (g : β → Traced γ) :
    (x.andThen f).andThen g = x.andThen fun a => (f a).andThen g := by
  cases hx : x.result with
  | error e => rw [andThen_eq_of_error hx, andThen_eq_of_error hx, andThen_eq_of_error rfl]
  | ok a =>
    rw [andThen_eq_of_ok hx, andThen_eq_of_ok hx]
    cases hf : (f a).result with
    | error e => rw [andThen_eq_of_error rfl, andThen_eq_of_error hf]
    | ok b =>
      rw [andThen_eq_of_ok rfl, andThen_eq_of_ok hf]
      simp only [List.append_assoc]

instance : LawfulMonad Traced := LawfulMonad.mk' Traced
  (fun x => by
    change x.andThen (fun a => ⟨[], .ok a⟩) = x
    cases h : x.result with
    | error e => rw [andThen_eq_of_error h, ← h]
    | ok a => rw [andThen_eq_of_ok h, List.append_nil, ← h])
  (fun _ _ => rfl)
  andThen_assoc

/-- Changes the value of a run and nothing else. -/
def map {α : Type u} {β : Type v} (f : α → β) (x : Traced α) : Traced β :=
  ⟨x.events, x.result.map f⟩

def log (e : Event) : Traced Unit := ⟨[e], .ok ()⟩

/-- Fails with a fault of the block at hand. -/
def fail {α : Type u} (fault : Fault) : Traced α := ⟨[], .error ⟨fault, []⟩⟩

/-- Reads the path of a failure from one block further up: it starts with the
slot that leads down. -/
def within {α : Type u} (slot : String) (x : Traced α) : Traced α :=
  match x.result with
  | .error e => ⟨x.events, .error { e with path := slot :: e.path }⟩
  | .ok a => ⟨x.events, .ok a⟩

end Traced

end BlockCode
