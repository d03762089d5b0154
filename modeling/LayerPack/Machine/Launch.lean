import LayerPack.Machine.Basic
import LayerPack.Shell.Evaluate

/-! Commands on a machine. A program is looked up on the disk of the machine and carried out there,
with an empty input, the variables of the machine and those of the command, and two outputs that are
kept apart. -/
namespace LayerPack.Machine

open Shell (Octets Channel)

/-- The number that a started process has; every process has another one. -/
def processId (m : Machine) : Nat := 1000 + m.ticks

/-- The variables of a process: those of a command take the place of inherited ones. -/
def processVariables (m : Machine) (c : Command) : List Shell.Variable :=
  let inherited := m.environment.filter fun (name, _) => !c.envs.any (·.1 = name)
  inherited.map (fun (name, value) => exported name (Octets.ofBytes value)) ++
    c.envs.map fun (name, value) => exported name (Octets.ofText value)
where
  exported (name : String) (value : Octets) : Shell.Variable :=
    { name := Octets.ofText name, value := some value, exported := true }

def workingPath (m : Machine) : Octets := Octets.ofBytes (Path.ofNames m.cwd).bytes

def processState (m : Machine) (c : Command) (deadline : Option Nat) : Shell.State :=
  let path := workingPath m
  Shell.put { name := "PWD".toList, value := some path }
    { disk := m.disk, cwd := m.cwd, path, bindings := processVariables m c
      channels := [(0, .source 0), (1, .buffer 0), (2, .buffer 1)]
      buffers := #[.empty, .empty], sources := #[[]], pid := m.processId, time := m.time, deadline }

/-- A zero byte cannot be handed to a program. -/
def hasNul (c : Command) : Bool :=
  c.program.bytes.contains 0 || c.args.any (·.contains 0) ||
    c.envs.any fun (name, value) => name.contains '\x00' || value.contains '\x00'

/-- The path at which a program starts. A name is looked for in the search path; a file of that
name that is not executable is remembered as the failure. -/
def programPath (s : Shell.State) (name : Octets) : Except SystemError Octets :=
  if name = [] then .error .noEntry
  else if name.contains '/' then .ok name
  else if Disk.maxName < name.length then .error .nameTooLong
  else
    match Shell.find s name with
    | some path => .ok path
    | none =>
      if (Shell.candidates s name).any fun path =>
        (s.disk.kind? s.cwd true (Octets.toPath path)).isSome then .error .noAccess
      else .error .noEntry

/-- What is left of a process, or its failure to start; an endless one leaves nothing. -/
def finish (m : Machine) (deadline : Option Nat)
    (outcome : Except Shell.Interrupt (Option SystemError)) (s : Shell.State) :
    Option (Except SystemError Finished) × Machine :=
  let m := { m with disk := s.disk, time := s.time }
  let output (i : Nat) : ByteArray := (s.buffers[i]?).getD .empty
  let finished (status : ExitStatus) : Option (Except SystemError Finished) :=
    some (.ok ⟨status, output 0, output 1⟩)
  match outcome with
  | .ok (some e) => (some (.error e), m)
  | .ok none | .error .exit | .error .returned | .error (.leave _) | .error (.again _) =>
    (finished (.code (s.status % 256)), m)
  | .error (.killed signal) => (finished (.signal signal), m)
  | .error .late | .error .endless =>
    (none, match deadline with
      | some limit => { m with time := max m.time (limit + 1) }
      | none => m)

/-- Carries out a command to its end or to a deadline. -/
def process (c : Command) (deadline : Option Nat) (m : Machine) :
    Option (Except SystemError Finished) × Machine :=
  if hasNul c then (some (.error .nulInArgument), m)
  else
    let s := processState m c deadline
    match programPath s (Octets.ofBytes c.program.bytes) with
    | .error e => (some (.error e), m)
    | .ok path =>
      let action := Shell.execute Shell.runScript Shell.maxInterpreters path
        (Octets.ofBytes c.program.bytes) (c.args.map Octets.ofBytes)
      match action.run s with
      | (outcome, s) => finish m deadline outcome s

/-- Puts the tools that a machine comes with into a directory. -/
def installTools (d : Disk) (dir : Path) : Disk :=
  (Shell.Tool.all.map (·.1) ++ Shell.Tool.carriers).foldl (fun d name =>
    (d.plant [] (dir.join (.ofString name)) 0o755 (Shell.Tool.image name)).toOption.getD d) d

end LayerPack.Machine
