/-!
# Routines

A routine is a computation as data: it is done, or it makes a request and goes on with the
response. What a request means is up to whoever runs the routine, so an entry of a lexicon can
carry one without knowing the parser or the renderer that will answer it. A routine makes finitely
many requests on every path, so running one always ends.
-/

namespace MathMarkup

/-- A computation that makes requests. -/
inductive Routine (Request : Type) (Response : Request → Type) (α : Type) where
  | done (a : α)
  | ask (q : Request) (next : Response q → Routine Request Response α)

namespace Routine

variable {Request : Type} {Response : Request → Type} {α β : Type}

/-- Goes on with another routine. -/
def bind (r : Routine Request Response α) (f : α → Routine Request Response β) :
    Routine Request Response β :=
  match r with
  | .done a => f a
  | .ask q next => .ask q fun x => (next x).bind f

instance : Monad (Routine Request Response) where
  pure := .done
  bind := bind

/-- The routine that makes one request. -/
def request (q : Request) : Routine Request Response (Response q) :=
  .ask q .done

/-- Runs a routine, given what answers its requests. -/
def run {m : Type → Type} [Monad m] (answer : (q : Request) → m (Response q)) :
    Routine Request Response α → m α
  | .done a => pure a
  | .ask q next => do
    let x ← answer q
    (next x).run answer

end Routine
end MathMarkup
