import DistributionSystem.Lib.Serial

/-! Histories and models of the linearizability checker (`model.go`), and what it means for a
history to be linearizable. A history is given by operations with their times, or by the events
of calls and returns in the order in which they happened. -/

namespace DistributionSystem.Checker

structure Operation (I O : Type) where
  input : I
  call : Int
  output : O
  ret : Int

/-- An operation precedes another if it has returned before the other is called. -/
def Operation.Before {I O : Type} (a b : Operation I O) : Prop := a.ret < b.call

/-- Some order of the operations keeps their precedence and is accepted from the state `s`. -/
def Linearizable {I O S : Type} (step : S → I → O → Bool × S) (s : S)
    (history : List (Operation I O)) : Prop :=
  Serial.Serializable (fun s v => step s v.input v.output) Operation.Before s history

inductive EventKind
  | call
  | ret
  deriving DecidableEq, Repr

structure Event (V : Type) where
  kind : EventKind
  value : V
  id : Nat
  deriving DecidableEq, Repr

/-- The functions of a model that the search uses. -/
structure Model (V S : Type) where
  init : S
  step : S → V → V → Bool × S
  equal : S → S → Bool

/-- `Equal` is an equivalence, and `Step` does not tell equal states apart. -/
structure Model.Lawful {V S : Type} (model : Model V S) : Prop where
  refl : ∀ s, model.equal s s = true
  symm : ∀ s t, model.equal s t = true → model.equal t s = true
  trans : ∀ s t u, model.equal s t = true → model.equal t u = true → model.equal s u = true
  step_ok : ∀ s t v w, model.equal s t = true → (model.step s v w).1 = (model.step t v w).1
  step_equal : ∀ s t v w, model.equal s t = true → (model.step s v w).1 = true →
    model.equal (model.step s v w).2 (model.step t v w).2 = true

namespace Event

variable {V : Type}

def isCall (e : Event V) : Bool := e.kind = .call

/-- The event is the return of the operation `id`. -/
def returns (id : Nat) (e : Event V) : Bool := e.kind = .ret && e.id = id

/-- The event belongs to the operation `id`. -/
def of (id : Nat) (e : Event V) : Bool := e.id = id

end Event

/-- An operation of an event history. -/
structure Op (V : Type) where
  id : Nat
  input : V
  output : V

section events

variable {V S : Type}

/-- Each id has one call and, later, one return. -/
def WellFormed (history : List (Event V)) : Prop :=
  ∀ e ∈ history, (history.filter (Event.of e.id)).map Event.kind = [.call, .ret]

instance (history : List (Event V)) : Decidable (WellFormed history) :=
  inferInstanceAs (Decidable (∀ e ∈ history,
    (history.filter (Event.of e.id)).map Event.kind = [.call, .ret]))

/-- The value with which the operation `id` returns. -/
def outputOf (history : List (Event V)) (id : Nat) : Option V :=
  (history.find? (Event.returns id)).map Event.value

/-- The operations of a history, in the order of their calls. -/
def operations (history : List (Event V)) : List (Op V) :=
  (history.filter Event.isCall).filterMap fun e =>
    (outputOf history e.id).map fun out => ⟨e.id, e.value, out⟩

/-- The operation `a` returns before the operation `b` is called. -/
def Precedes (history : List (Event V)) (a b : Nat) : Prop :=
  ∃ h₁ h₂, history = h₁ ++ h₂ ∧ (∃ e ∈ h₁, e.kind = .ret ∧ e.id = a) ∧
    ∃ e ∈ h₂, e.kind = .call ∧ e.id = b

/-- Some order of the operations keeps real time and is accepted by `Step` from the state `s`. -/
def LinearizableFrom (model : Model V S) (s : S) (history : List (Event V)) : Prop :=
  Serial.Serializable (fun s o => model.step s o.input o.output)
    (fun a b => Precedes history a.id b.id) s (operations history)

end events

end DistributionSystem.Checker
