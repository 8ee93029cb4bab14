import Abacus.Decimal.Numeral

/-!
# Events

What a run reports on the way, besides its result: the stages it went through, every definition,
call and printed value. `Traced` is a result together with the events before it; an error keeps the
events that led up to it.
-/
namespace Abacus

/-- What a run reports while it goes on. Each constructor is one of the places at which the
interpreter writes to its log, with the data it writes there. -/
inductive Event where
  | tokenized (tokens : Nat)
  | parsed (statements : Nat)
  | folded (nodes : Nat)
  | compiled (instructions : Nat)
  | checked (vertices mismatches : Nat)
  | degree (function : String) (value : Float)
  | define (name : String) (params : Nat)
  | call (name : String) (depth : Nat)
  | print (value : Float)
  deriving DecidableEq

/-- How detailed a report is; a log leaves out what is more detailed than it was asked for. -/
inductive Level where
  | trace
  | debug
  | info
  deriving DecidableEq

namespace Event

/-- The level of an event. What happens inside a run is traced, the end of a stage is for debugging,
and a printed value is information. -/
def level : Event → Level
  | define _ _ | call _ _ => .trace
  | print _ => .info
  | _ => .debug

/-- The fixed text of an event, the same for all events of its kind. -/
def message : Event → String
  | tokenized _ => "tokenized source"
  | parsed _ => "parsed program"
  | folded _ => "optimized program"
  | compiled _ => "compiled program"
  | checked _ _ => "type checked program"
  | degree _ _ => "computed degree"
  | define _ _ => "define"
  | call _ _ => "call"
  | print _ => "print"

/-- The details of an event, by their names in the log and their texts there, in the order in which
they are written. -/
def fields : Event → List (String × String)
  | tokenized tokens => [("tokens", toString tokens)]
  | parsed statements => [("statements", toString statements)]
  | folded nodes => [("folded", toString nodes)]
  | compiled instructions => [("instructions", toString instructions)]
  | checked vertices mismatches =>
    [("vertices", toString vertices), ("mismatches", toString mismatches)]
  | degree function value => [("function", function), ("degree", Decimal.render value)]
  | define name params => [("name", name), ("params", toString params)]
  | call name depth => [("name", name), ("depth", toString depth)]
  | print value => [("value", Decimal.render value)]

/-- The value that an event of the function `print` shows; no other event shows one. -/
def printed? : Event → Option Float
  | print value => some value
  | _ => none

end Event

def Level.name : Level → String
  | trace => "trace"
  | debug => "debug"
  | info => "info"

/-- What is left of a computation that logs and can fail: the events it reported, oldest first, and
its result. An error does not take back the events before it. -/
structure Traced (ε α : Type) where
  events : List Event
  result : Except ε α

namespace Traced

variable {ε ε' α β : Type}

/-- A result without events: a computation that does not log. -/
def ofExcept (result : Except ε α) : Traced ε α :=
  { events := [], result }

/-- Failure without events, where a function returns an error early. -/
def fail (error : ε) : Traced ε α :=
  ofExcept (.error error)

/-- One event and nothing else: a call of the log. -/
def emit (event : Event) : Traced ε Unit :=
  { events := [event], result := .ok () }

instance : Monad (Traced ε) where
  pure a := ofExcept (.ok a)
  bind x f :=
    match x.result with
    | .error e => { events := x.events, result := .error e }
    | .ok a => { events := x.events ++ (f a).events, result := (f a).result }

/-- The same computation with its error changed, as when a stage's error becomes an `Error` of the
library on its way out. -/
def mapError (f : ε → ε') (x : Traced ε α) : Traced ε' α :=
  { events := x.events, result := x.result.mapError f }

/-- The printed values of a run, in order. They are what a user sees of it besides its result. -/
def printed (x : Traced ε α) : List Float :=
  x.events.filterMap Event.printed?

end Traced
end Abacus
