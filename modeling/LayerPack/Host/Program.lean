import LayerPack.Host.Request

/-! Programs: a result, or a request and what to do with its answer. -/
namespace LayerPack

inductive Program (α : Type) where
  | done (result : α)
  | ask (request : Request) (next : request.Reply → Program α)

namespace Program

variable {α β σ : Type}

def bind : Program α → (α → Program β) → Program β
  | done a, f => f a
  | ask q next, f => ask q fun r => (next r).bind f

instance : Monad Program where
  pure := done
  bind := bind

theorem pure_eq_done (a : α) : (pure a : Program α) = done a := rfl

theorem bind_eq (p : Program α) (f : α → Program β) : p >>= f = p.bind f := rfl

theorem bind_done (p : Program α) : p.bind done = p := by
  induction p with
  | done => rfl
  | ask q next ih => exact congrArg (ask q) (funext ih)

theorem bind_assoc {γ : Type} (p : Program α) (f : α → Program β) (g : β → Program γ) :
    (p.bind f).bind g = p.bind fun a => (f a).bind g := by
  induction p with
  | done => rfl
  | ask q next ih => exact congrArg (ask q) (funext ih)

instance : LawfulMonad Program := LawfulMonad.mk' Program
  bind_done (fun _ _ => rfl) bind_assoc

/-- The program of a single request. -/
def request (q : Request) : Program q.Reply := ask q done

/-- A way to answer requests, with a state that the answers change. -/
abbrev Answers (σ : Type) := (q : Request) → σ → q.Reply × σ

/-- Runs a program to its end. -/
def run (answer : Answers σ) : Program α → σ → α × σ
  | done a, s => (a, s)
  | ask q next, s => (next (answer q s).1).run answer (answer q s).2

/-- The requests of a run, each with the state in which it is made. -/
def trace (answer : Answers σ) : Program α → σ → List (Request × σ)
  | done _, _ => []
  | ask q next, s => (q, s) :: (next (answer q s).1).trace answer (answer q s).2

@[simp] theorem run_done (answer : Answers σ) (a : α) (s : σ) :
    (done a).run answer s = (a, s) := rfl

theorem run_bind (answer : Answers σ) (p : Program α) (f : α → Program β) (s : σ) :
    (p.bind f).run answer s = (f (p.run answer s).1).run answer (p.run answer s).2 := by
  induction p generalizing s with
  | done => rfl
  | ask q next ih => exact ih ..

theorem trace_bind (answer : Answers σ) (p : Program α) (f : α → Program β) (s : σ) :
    (p.bind f).trace answer s =
      p.trace answer s ++ (f (p.run answer s).1).trace answer (p.run answer s).2 := by
  induction p generalizing s with
  | done => rfl
  | ask q next ih => exact congrArg ((q, s) :: ·) (ih ..)

end Program

/-- Why a piece of work stopped before its end. -/
inductive Stop where
  | failed (cause : Error)
  /-- The deadline of the stage struck. -/
  | late
  deriving DecidableEq

/-- Work done under an optional deadline. It can be cut off only where it waits. -/
def Work (α : Type) := Option Nat → Program (Except Stop α)

namespace Work

variable {α β : Type}

def run (w : Work α) (deadline : Option Nat) : Program (Except Stop α) := w deadline

instance : Monad Work where
  pure a := fun _ => .done (.ok a)
  bind w f := fun deadline => (w deadline).bind fun
    | .ok a => f a deadline
    | .error stop => .done (.error stop)

def fail (cause : Error) : Work α := fun _ => .done (.error (.failed cause))

/-- Fails in one case only. -/
def failIf (wrong : Bool) (cause : Error) : Work Unit := if wrong then fail cause else pure ()

/-- Steps that are not waited for are never cut off. -/
def now (p : Program α) : Work α := fun _ => p.bind fun a => .done (.ok a)

def ofExcept : Except Error α → Work α
  | .ok a => pure a
  | .error cause => fail cause

/-- Whether the clock has reached the deadline. -/
def isLate : Option Nat → Program Bool
  | none => .done false
  | some limit => .ask .clock fun time => .done (limit ≤ time)

/-- Waits for steps. The deadline may strike before them, and it may strike during them, in which
case they are carried out but their result is lost. -/
def await (p : Program α) : Work α := fun deadline =>
  (isLate deadline).bind fun
    | true => .done (.error .late)
    | false => p.bind fun a => (isLate deadline).bind fun
      | true => .done (.error .late)
      | false => .done (.ok a)

/-- Runs work and hands its outcome to what follows, also if it failed; a deadline still ends it. -/
def attempt (w : Work α) : Work (Except Error α) := fun deadline =>
  (w deadline).bind fun
    | .ok a => .done (.ok (.ok a))
    | .error (.failed cause) => .done (.ok (.error cause))
    | .error .late => .done (.error .late)

/-- Changes the cause of a failure. -/
def mapError (f : Error → Error) (w : Work α) : Work α := fun deadline =>
  (w deadline).bind fun
    | .error (.failed cause) => .done (.error (.failed (f cause)))
    | outcome => .done outcome

/-- Does something more when work stops early, whatever the reason. -/
def onStop (w : Work α) (cleanup : Program Unit) : Work α := fun deadline =>
  (w deadline).bind fun
    | .ok a => .done (.ok a)
    | .error stop => cleanup.bind fun _ => .done (.error stop)

/-- The outcome of work without a deadline. -/
def toProgram (w : Work α) : Program (Except Error α) :=
  (w none).bind fun
    | .ok a => .done (.ok a)
    | .error (.failed cause) => .done (.error cause)
    | .error .late => .done (.error (.other "out of time"))

end Work

end LayerPack
