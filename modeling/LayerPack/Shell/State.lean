import LayerPack.Disk.Calls
import LayerPack.Shell.Form

/-! What a running shell knows, and the steps that every command is made of: reading and writing
through descriptors, variables, complaints, and the ways in which a script is cut off. Outputs are
buffers that grow; a pipe is a buffer that is read after it has been filled. -/
namespace LayerPack.Shell

/-- What a descriptor stands for. -/
inductive Channel where
  | file (handle : Handle)
  | buffer (index : Nat)
  | source (index : Nat)
  | nowhere
  deriving DecidableEq

structure Variable where
  name : Octets
  /-- A variable can be marked before it has a value. -/
  value : Option Octets
  exported : Bool := false
  constant : Bool := false

structure Options where
  /-- Stop after the first failure. -/
  stopOnFailure : Bool := false
  /-- An unset parameter is an error. -/
  strict : Bool := false
  /-- Do not expand patterns to file names. -/
  literalNames : Bool := false
  /-- Show every command before it is carried out. -/
  trace : Bool := false

structure State where
  disk : Disk
  /-- The place of the current directory, and its path as it was reached. -/
  cwd : Place
  path : Octets
  bindings : List Variable := []
  functions : List (Octets × Form) := []
  /-- The variables that get their old values back when the function at hand ends. -/
  locals : List (Octets × Option Variable) := []
  /-- The name under which the shell runs, and its arguments. -/
  self : Octets := []
  arguments : List Octets := []
  status : Nat := 0
  /-- How the last script ended whose output was taken in the command at hand. -/
  nested : Option Nat := none
  channels : List (Nat × Channel) := []
  buffers : Array ByteArray := #[]
  sources : Array Octets := #[]
  options : Options := {}
  /-- A failure is expected here, so that it does not stop the script. -/
  guarded : Bool := false
  /-- How many loops and functions the command at hand stands in. -/
  loops : Nat := 0
  calls : Nat := 0
  /-- What is done on a signal or at the end. -/
  traps : List (Octets × Octets) := []
  pid : Nat := 1
  line : Nat := 1
  mask : Nat := 0o022
  /-- The clock in milliseconds, and when the whole process is killed. -/
  time : Nat := 0
  deadline : Option Nat := none

/-- Why the rest of a script is not carried out. -/
inductive Interrupt where
  | leave (levels : Nat)
  | again (levels : Nat)
  | returned
  | exit
  | killed (signal : Nat)
  /-- The deadline of the process has struck. -/
  | late
  | endless

end Shell

open Shell in
/-- An action of a shell. What it has changed stays changed when it is cut off. -/
abbrev Shell := ExceptT Interrupt (StateM State)

namespace Shell

/-! ### Descriptors -/

def channel? (s : State) (descriptor : Nat) : Option Channel := s.channels.lookup descriptor

def setChannel (descriptor : Nat) (c : Option Channel) (s : State) : State :=
  let others := s.channels.filter (·.1 ≠ descriptor)
  { s with channels := match c with
      | some c => (descriptor, c) :: others
      | none => others }

/-- Writes to a descriptor; whether that was possible. -/
def write (descriptor : Nat) (text : Octets) : Shell Bool := do
  let s ← get
  match channel? s descriptor with
  | some (.buffer i) =>
    set { s with buffers := s.buffers.modify i (· ++ Octets.toContent text) }
    return true
  | some (.file h) =>
    set { s with disk := s.disk.append h (Octets.toContent text) }
    return true
  | some .nowhere => return true
  | some (.source _) => return false
  | none => return false

def print (text : Octets) : Shell Unit := do
  let _ ← write 1 text

def printLine (text : Octets) : Shell Unit := print (text ++ ['\n'])

/-- What is left to read at a descriptor; nothing of it is left after that. -/
def readAll (descriptor : Nat) : Shell Octets := do
  let s ← get
  match channel? s descriptor with
  | some (.source i) =>
    set { s with sources := s.sources.modify i fun _ => [] }
    return (s.sources[i]?).getD []
  | _ => return []

/-- The next line and whether it was ended; none at the end of the input. -/
def readLine (descriptor : Nat) : Shell (Option (Octets × Bool)) := do
  let s ← get
  match channel? s descriptor with
  | some (.source i) =>
    match (s.sources[i]?).getD [] with
    | [] => return none
    | text =>
      let rest := text.dropWhile (· ≠ '\n')
      set { s with sources := s.sources.modify i fun _ => rest.drop 1 }
      return some (text.takeWhile (· ≠ '\n'), rest ≠ [])
  | _ => return none

/-- A new source with a text in it. -/
def addSource (text : Octets) : Shell Channel := do
  let s ← get
  set { s with sources := s.sources.push text }
  return .source s.sources.size

/-! ### Outcomes -/

def setStatus (n : Nat) : Shell Unit := modify fun s => { s with status := n }

/-- Writes a message to the error output under the name of the shell. -/
def complain (message : Octets) : Shell Unit := do
  let s ← get
  let _ ← write 2 (s.self ++ ": ".toList ++ (toString s.line).toList ++ ": ".toList ++ message ++
    ['\n'])

/-- A failure that ends the shell. -/
def abandon {α : Type} (message : Octets) : Shell α := do
  complain message
  setStatus 2
  throw .exit

/-- A failure of a command in the shell. -/
def refuse (status : Nat) (message : Octets) : Shell Unit := do
  complain message
  setStatus status

/-- The text of a failure of the system. -/
def reason : SystemError → Octets
  | .code n => (SystemError.describe n).toList
  | .text message => message.toList

/-- Lets time pass; a process does not outlive its deadline. -/
def pass (milliseconds : Nat) : Shell Unit := do
  let s ← get
  let later := s.time + milliseconds
  match s.deadline with
  | some limit =>
    if limit < later then
      set { s with time := limit + 1 }
      throw .late
    else set { s with time := later }
  | none => set { s with time := later }

/-! ### Variables -/

def binding? (s : State) (name : Octets) : Option Variable :=
  s.bindings.find? (·.name = name)

def value? (s : State) (name : Octets) : Option Octets := (binding? s name).bind (·.value)

/-- Puts a variable in the place of the one of its name. -/
def put (v : Variable) (s : State) : State :=
  if s.bindings.any (·.name = v.name) then
    { s with bindings := s.bindings.map fun old => if old.name = v.name then v else old }
  else { s with bindings := s.bindings ++ [v] }

def forget (name : Octets) (s : State) : State :=
  { s with bindings := s.bindings.filter (·.name ≠ name) }

/-- Gives a variable a value; a constant one cannot be changed. -/
def assign (name value : Octets) : Shell Unit := do
  let s ← get
  match binding? s name with
  | some v =>
    if v.constant then abandon (name ++ ": is read only".toList)
    set (put { v with value := some value } s)
  | none => set (put { name, value := some value, exported := false } s)

/-- The variables that a command gets. -/
def environment (s : State) : List (Octets × Octets) :=
  s.bindings.filterMap fun v => if v.exported then v.value.map (v.name, ·) else none

/-! ### Nesting -/

/-- Carries out an action and takes back what it did to the shell itself. What it did to files,
outputs and the clock stays. -/
def inside (action : Shell Unit) : Shell Unit := do
  let before ← get
  let restore (after : State) : State :=
    { before with
      disk := after.disk, buffers := after.buffers, sources := after.sources, time := after.time
      status := after.status }
  try
    action
    modify restore
  catch
    | .endless => throw .endless
    | .late => do
      modify restore
      throw .late
    | .killed signal => do
      modify restore
      throw (.killed signal)
    | _ => modify restore

/-- The text that an action prints. -/
def outputOf (action : Shell Unit) : Shell Octets := do
  let before := (← get).status
  let index := (← get).buffers.size
  modify fun s => { s with buffers := s.buffers.push .empty }
  inside do
    modify (setChannel 1 (some (.buffer index)))
    action
  modify fun s => { s with nested := some s.status, status := before }
  return Octets.ofContent (((← get).buffers[index]?).getD .empty)

end Shell

end LayerPack
