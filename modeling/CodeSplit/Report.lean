import CodeSplit.Decision
import CodeSplit.Event

/-!
Computations that take notes: the decisions and events of a pass, in order, and its result. What was
noted before a fault is kept.
-/
namespace CodeSplit

inductive Note where
  | decision (phase : Phase) (kind : Decision.Kind)
  | event (event : Event)
  deriving DecidableEq, Repr

structure Report (α : Type) where
  notes : List Note
  result : Except Fault α

namespace Report

def pure {α : Type} (a : α) : Report α := ⟨[], .ok a⟩

def bind {α β : Type} (r : Report α) (next : α → Report β) : Report β :=
  match r.result with
  | .ok a =>
    let rest := next a
    ⟨r.notes ++ rest.notes, rest.result⟩
  | .error e => ⟨r.notes, .error e⟩

instance : Monad Report where
  pure := Report.pure
  bind := Report.bind

@[simp] theorem pure_eq {α : Type} (a : α) : (Pure.pure a : Report α) = ⟨[], .ok a⟩ := rfl

theorem bind_eq {α β : Type} (r : Report α) (next : α → Report β) :
    r >>= next = match r.result with
      | .ok a => ⟨r.notes ++ (next a).notes, (next a).result⟩
      | .error e => ⟨r.notes, .error e⟩ := rfl

/-- A bind has a result exactly if both parts have. -/
theorem result_bind_eq_ok {α β : Type} {r : Report α} {next : α → Report β} {b : β} :
    (r >>= next).result = .ok b ↔ ∃ a, r.result = .ok a ∧ (next a).result = .ok b := by
  rw [bind_eq]
  cases found : r.result with
  | ok a => simp
  | error e => simp

def ofExcept {α : Type} (result : Except Fault α) : Report α := ⟨[], result⟩

def note (n : Note) : Report Unit := ⟨[n], .ok ()⟩

def decide (phase : Phase) (kinds : List Decision.Kind) : Report Unit :=
  ⟨kinds.map (.decision phase), .ok ()⟩

def event (e : Event) : Report Unit := note (.event e)

def mapFault {α : Type} (f : Fault → Fault) (r : Report α) : Report α :=
  ⟨r.notes, match r.result with
    | .ok a => .ok a
    | .error e => .error (f e)⟩

end Report

namespace Note

def decision? : Note → Option (Phase × Decision.Kind)
  | .decision phase kind => some (phase, kind)
  | .event _ => none

def event? : Note → Option Event
  | .event e => some e
  | .decision _ _ => none

end Note

namespace Report

def decisions {α : Type} (r : Report α) : List (Phase × Decision.Kind) :=
  r.notes.filterMap Note.decision?

def events {α : Type} (r : Report α) : List Event := r.notes.filterMap Note.event?

end Report

end CodeSplit
