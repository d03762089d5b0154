import LayerPack.Host.Program
import LayerPack.Disk.Walk

/-! A host as a value: a disk, a current directory, an environment, the locks that are held, a
clock, and what has been said and asked. It answers every request of a program. What is not up to
the program is a parameter: how others behave, which requests fail, how much a read returns and
how time passes. -/
namespace LayerPack

structure Machine where
  disk : Disk := {}
  /-- The place of the current directory. -/
  cwd : Place := []
  environment : List (String × Bytes) := []
  /-- The numbers of the locked files. -/
  held : List Nat := []
  /-- The clock, in milliseconds. -/
  time : Nat := 0
  /-- How many requests have been answered. -/
  ticks : Nat := 0
  /-- Whether the project is installed in the active environment. -/
  installed : Bool := false
  /-- The calls of collaborators, in order. -/
  calls : List Call := []
  logs : List (Level × String) := []
  out : String := ""
  err : String := ""

/-- What others do. An answer that never comes is none. -/
structure Outside where
  collaborate : (call : Call) → Machine → Option (Except Error call.Result) × Machine
  process : Command → Option Nat → Machine → Option (Except SystemError Finished) × Machine
  /-- The failure of the request of a number, if it is to fail. -/
  fault : Nat → Option SystemError := fun _ => none
  /-- How much time passes before the request of a number is answered. -/
  delay : Nat → Nat := fun _ => 0
  /-- How many bytes a read returns at most. -/
  grant : Nat → Nat → Nat := fun _ buffer => buffer

namespace Machine

def step (m : Machine) (delay : Nat) : Machine :=
  { m with ticks := m.ticks + 1, time := m.time + delay }

/-- Reading the machine cannot change it, but it can fail. -/
def reading {α : Type} (fault : Option SystemError) (m : Machine)
    (answer : Except SystemError α) : Except SystemError α × Machine :=
  match fault with
  | some e => (.error e, m)
  | none => (answer, m)

/-- A change of the disk takes place or fails. -/
def changing (fault : Option SystemError) (m : Machine) (answer : Except SystemError Disk) :
    Except SystemError Unit × Machine :=
  match fault, answer with
  | some e, _ => (.error e, m)
  | none, .error e => (.error e, m)
  | none, .ok disk => (.ok (), { m with disk })

def currentPath (m : Machine) : Except SystemError Path :=
  match m.disk.get? m.cwd with
  | some (.dir _) => .ok (Path.ofNames m.cwd)
  | _ => .error .noEntry

def opening (fault : Option SystemError) (m : Machine)
    (answer : Except SystemError (Handle × Disk)) : Except SystemError Handle × Machine :=
  match fault, answer with
  | some e, _ => (.error e, m)
  | none, .error e => (.error e, m)
  | none, .ok (h, disk) => (.ok h, { m with disk })

def removingTree (fault : Option SystemError) (m : Machine) (p : Path) :
    Except SystemError Unit × Machine :=
  match fault with
  | some e => (.error e, m)
  | none =>
    match m.disk.removeTree m.cwd p with
    | (answer, disk) => (answer, { m with disk })

/-- A file is locked for one holder at a time. -/
def locking (fault : Option SystemError) (m : Machine) (h : Handle) :
    Except SystemError Unit × Machine :=
  match fault with
  | some e => (.error e, m)
  | none =>
    if h.id ∈ m.held then (.error .wouldBlock, m)
    else (.ok (), { m with held := h.id :: m.held })

def readable : OpenFile → Nat → Except SystemError Nat
  | .directory, _ => .error .isDirectory
  | .data _, granted => .ok granted

def say (m : Machine) : Stream → String → Machine
  | .out, text => { m with out := m.out ++ text }
  | .err, text => { m with err := m.err ++ text }

/-- The outcome of something that is waited for until a deadline. -/
def waited {α : Type} (limit : Nat) : Option α × Machine → Option α × Machine
  | (some a, m) => if limit < m.time then (none, m) else (some a, m)
  | (none, m) => (none, { m with time := max m.time limit })

def endless : Error := .other "the call never ends"

/-- The outcome of something that is waited for without a deadline. -/
def forever {ε α : Type} (never : ε) : Option (Except ε α) × Machine → Except ε α × Machine
  | (some answer, m) => (answer, m)
  | (none, m) => (.error never, m)

/-- Digits and dashes like those of a random identifier: twelve of the digits are the number. -/
def numbered (n : Nat) : String :=
  let digits := toString n
  "00000000-0000-4000-8000-" ++ String.ofList (List.replicate (12 - digits.length) '0') ++ digits

/-- A name that occurs in none on the disk. It has the number, unless that is in use; then its
number has more digits than the longest name. -/
def freshName (d : Disk) (n : Nat) : String :=
  if d.root.anyName (Text.occursIn (Bytes.ofString (numbered n))) then
    numbered (Nat.pow 10 d.root.longestName)
  else numbered n

def record (m : Machine) (call : Call) : Machine := { m with calls := m.calls ++ [call] }

/-- Answers a request. -/
def answer (o : Outside) (q : Request) (before : Machine) : q.Reply × Machine :=
  let m := before.step (o.delay before.ticks)
  let fault := o.fault before.ticks
  match q with
  | .stat follow p => reading fault m (m.disk.stat m.cwd follow p)
  | .list p => reading fault m (m.disk.list m.cwd p)
  | .snapshot p => reading fault m (m.disk.snapshot m.cwd p)
  | .openRead p => reading fault m (m.disk.openRead m.cwd p)
  | .read file buffer => reading fault m (readable file (o.grant before.ticks buffer))
  | .mkdir p => changing fault m (m.disk.mkdir m.cwd p)
  | .unlink p => changing fault m (m.disk.unlink m.cwd p)
  | .removeTree p => removingTree fault m p
  | .rename src dst => changing fault m (m.disk.rename m.cwd src dst)
  | .openWrite truncate p => opening fault m (m.disk.openWrite m.cwd truncate p)
  | .append h bytes => changing fault m (.ok (m.disk.append h bytes))
  | .sync _ => reading fault m (.ok ())
  | .lock h => locking fault m h
  | .unlock h => ((), { m with held := m.held.erase h.id })
  | .workingDirectory => reading fault m m.currentPath
  | .variable name => (m.environment.lookup name, m)
  | .clock => (m.time, m)
  | .freshName => (freshName m.disk before.ticks, m)
  | .run c none => forever .ioError (o.process c none m)
  | .run c (some limit) => waited limit (o.process c (some limit) m)
  | .collaborate call none => forever endless (o.collaborate call (m.record call))
  | .collaborate call (some limit) => waited limit (o.collaborate call (m.record call))
  | .log level text => ((), { m with logs := m.logs ++ [(level, text)] })
  | .print stream text =>
    match fault with
    | some e => (.error e, m)
    | none => (.ok (), m.say stream text)

/-- Runs a program on a machine. -/
def run {α : Type} (o : Outside) (p : Program α) (m : Machine) : α × Machine :=
  p.run (answer o) m

end Machine

end LayerPack
