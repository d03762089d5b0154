import LayerPack.CommandLine.Args

/-! Reading the command line. An option is long or a single letter; letters can be bundled, and a
value is attached or the next argument. The first thing that is wrong from left to right wins.
Values that are missing on the command line can come from the environment. -/
namespace LayerPack

/-- Why the command line is not read to its end. -/
inductive Usage where
  | help
  | version
  | unknownArgument
  /-- A value is missing, or empty where it must not be. -/
  | invalidValue
  /-- A value is not of the form that its option wants. -/
  | malformedValue
  /-- An option is repeated, or two options exclude each other. -/
  | conflict
  /-- A flag was given a value. -/
  | unexpectedValue
  | notText
  deriving DecidableEq, Repr

def Usage.exitCode : Usage → Nat
  | help | version => 0
  | _ => 2

/-- The options of the command line. -/
inductive Opt where
  | source
  | projectName
  | output
  | workspace
  | distDir
  | python
  | frontend
  | layerPrefix
  | platform
  | pythonVersion
  | implementation
  | pipArg
  | stageTimeout
  | keepWorkspace
  | skipReconcile
  | checkLimits
  | maxZippedMib
  | maxUnzippedMib
  | json
  | verbose
  | quiet
  | help
  | version
  deriving DecidableEq, Repr

namespace Opt

def long : Opt → String
  | source => "source"
  | projectName => "project-name"
  | output => "output"
  | workspace => "workspace"
  | distDir => "dist-dir"
  | python => "python"
  | frontend => "frontend"
  | layerPrefix => "layer-prefix"
  | platform => "platform"
  | pythonVersion => "python-version"
  | implementation => "implementation"
  | pipArg => "pip-arg"
  | stageTimeout => "stage-timeout"
  | keepWorkspace => "keep-workspace"
  | skipReconcile => "skip-reconcile"
  | checkLimits => "check-limits"
  | maxZippedMib => "max-zipped-mib"
  | maxUnzippedMib => "max-unzipped-mib"
  | json => "json"
  | verbose => "verbose"
  | quiet => "quiet"
  | help => "help"
  | version => "version"

def letter? : Opt → Option Char
  | source => some 's'
  | projectName => some 'n'
  | output => some 'o'
  | workspace => some 'w'
  | verbose => some 'v'
  | quiet => some 'q'
  | help => some 'h'
  | version => some 'V'
  | _ => none

def all : List Opt :=
  [source, projectName, output, workspace, distDir, python, frontend, layerPrefix, platform,
    pythonVersion, implementation, pipArg, stageTimeout, keepWorkspace, skipReconcile, checkLimits,
    maxZippedMib, maxUnzippedMib, json, verbose, quiet, help, version]

def ofLong? (name : Bytes) : Option Opt := all.find? fun o => Bytes.ofString o.long = name

def ofLetter? (b : UInt8) : Option Opt :=
  all.find? fun o => o.letter?.any fun c => c.toNat = b.toNat

def isFlag : Opt → Bool
  | keepWorkspace | skipReconcile | checkLimits | json | verbose | quiet | help | version => true
  | _ => false

/-- May be given more than once. -/
def isList : Opt → Bool
  | platform | pipArg => true
  | _ => false

/-- The next argument is the value, whatever it looks like. -/
def takesAnything : Opt → Bool
  | pipArg => true
  | _ => false

/-- The variable of the environment that stands in for the option. -/
def variableName? : Opt → Option String
  | source => some "KODEGEN_LAYER_SOURCE"
  | projectName => some "KODEGEN_LAYER_PROJECT"
  | output => some "KODEGEN_LAYER_OUTPUT"
  | workspace => some "KODEGEN_LAYER_WORKSPACE"
  | python => some "KODEGEN_LAYER_PYTHON"
  | _ => none

/-- The options that the environment can stand in for, in the order in which it is asked. -/
def withVariable : List Opt := [source, projectName, output, workspace, python]

end Opt

namespace Args

def readPath (raw : Bytes) : Except Usage Path :=
  if raw = [] then .error .invalidValue else .ok ⟨raw⟩

def readText (raw : Bytes) : Except Usage String :=
  match Bytes.toText? raw with
  | some text => .ok text
  | none => .error .notText

/-- Decimal digits with an optional plus sign, below 2⁶⁴. -/
def digits? (text : List Char) : Option Nat :=
  let digits := match text with
    | '+' :: rest => rest
    | _ => text
  if digits ≠ [] ∧ digits.all Char.isDigit then
    let n := digits.foldl (fun n c => n * 10 + (c.toNat - 48)) 0
    if n < Nat.pow 2 64 then some n else none
  else none

def readNumber (raw : Bytes) : Except Usage Nat := do
  match digits? (← readText raw).toList with
  | some n => return n
  | none => throw .malformedValue

def readFrontend (raw : Bytes) : Except Usage Frontend := do
  match Frontend.parse (← readText raw) with
  | .ok frontend => return frontend
  | .error _ => throw .malformedValue

/-- Sets the value of an option that takes one. -/
def setValue (a : Args) (o : Opt) (raw : Bytes) : Except Usage Args := do
  match o with
  | .source => return { a with source := ← readPath raw }
  | .projectName => return { a with projectName := some (← readText raw) }
  | .output => return { a with output := some (← readPath raw) }
  | .workspace => return { a with workspace := some (← readPath raw) }
  | .distDir => return { a with distDir := some (← readPath raw) }
  | .python => return { a with python := some (← readPath raw) }
  | .frontend => return { a with frontend := some (← readFrontend raw) }
  | .layerPrefix => return { a with layerPrefix := some (← readText raw) }
  | .platform => return { a with platforms := a.platforms ++ [← readText raw] }
  | .pythonVersion => return { a with pythonVersion := some (← readText raw) }
  | .implementation => return { a with implementation := some (← readText raw) }
  | .pipArg => return { a with pipArgs := a.pipArgs ++ [← readText raw] }
  | .stageTimeout => return { a with stageTimeout := some (← readNumber raw) }
  | .maxZippedMib => return { a with maxZippedMib := ← readNumber raw }
  | .maxUnzippedMib => return { a with maxUnzippedMib := ← readNumber raw }
  | _ => return a

def setFlag (a : Args) : Opt → Except Usage Args
  | .keepWorkspace => .ok { a with keepWorkspace := true }
  | .skipReconcile => .ok { a with skipReconcile := true }
  | .checkLimits => .ok { a with checkLimits := true }
  | .json => .ok { a with json := true }
  | .verbose => .ok { a with verbose := true }
  | .quiet => .ok { a with quiet := true }
  | .help => .error .help
  | .version => .error .version
  | _ => .ok a

end Args

/-- How far a command line has been read. An option whose value is the next argument waits, also
after it got its value, until something comes after it. -/
structure Reading where
  args : Args := {}
  seen : List Opt := []
  waiting : Option (Opt × Option Bytes) := none
  /-- After two dashes there are no more options. -/
  closed : Bool := false

namespace Reading

/-- Notes an option; only lists can be given again. -/
def note (r : Reading) (o : Opt) : Except Usage Reading :=
  if o ∈ r.seen ∧ !o.isList then .error .conflict else .ok { r with seen := o :: r.seen }

def apply (r : Reading) (o : Opt) (raw : Bytes) : Except Usage Reading := do
  let r ← r.note o
  return { r with args := ← r.args.setValue o raw }

/-- Takes in the option that waits. -/
def settle (r : Reading) : Except Usage Reading :=
  match r.waiting with
  | none => .ok r
  | some (_, none) => .error .invalidValue
  | some (o, some raw) => apply { r with waiting := none } o raw

def flag (r : Reading) (o : Opt) : Except Usage Reading := do
  let r ← r.settle
  if o = .help then throw .help
  if o = .version then throw .version
  let r ← r.note o
  return { r with args := ← r.args.setFlag o }

/-- An option with its value attached. -/
def attached (r : Reading) (o : Opt) (raw : Bytes) : Except Usage Reading := do
  (← r.settle).apply o raw

/-- An option whose value is to come. -/
def await (r : Reading) (o : Opt) : Except Usage Reading := do
  return { ← r.settle with waiting := some (o, none) }

def equals : UInt8 := 0x3D

def dash : UInt8 := 0x2D

def splitEquals : Bytes → Bytes × Option Bytes
  | [] => ([], none)
  | b :: rest =>
    if b = equals then ([], some rest)
    else let (name, value) := splitEquals rest; (b :: name, value)

/-- An argument that starts with two dashes; they have been dropped. -/
def longArg (r : Reading) (text : Bytes) : Except Usage Reading :=
  let (name, value) := splitEquals text
  match Opt.ofLong? name, value with
  | none, _ => .error .unknownArgument
  | some o, none => if o.isFlag then r.flag o else r.await o
  | some o, some raw => if o.isFlag then .error .unexpectedValue else r.attached o raw

/-- Letters after a single dash. -/
def letters (r : Reading) : Bytes → Except Usage Reading
  | [] => .ok r
  | b :: rest =>
    match Opt.ofLetter? b with
    | none => .error .unknownArgument
    | some o =>
      if o.isFlag then do letters (← r.flag o) rest
      else
        match rest with
        | [] => r.await o
        | c :: value => r.attached o (if c = equals then value else rest)

/-- Reads one argument. -/
def step (r : Reading) (arg : Bytes) : Except Usage Reading :=
  if r.closed then .error .unknownArgument
  else
    match r.waiting, arg with
    | some (o, none), _ =>
      if o.takesAnything then .ok { r with waiting := some (o, some arg) }
      else
        match arg with
        | [0x2D, 0x2D] => .ok { r with closed := true }
        | 0x2D :: 0x2D :: text => r.longArg text
        | [0x2D] => .ok { r with waiting := some (o, some arg) }
        | 0x2D :: text => r.letters text
        | _ => .ok { r with waiting := some (o, some arg) }
    | _, [0x2D, 0x2D] => .ok { r with closed := true }
    | _, 0x2D :: 0x2D :: text => r.longArg text
    | _, [0x2D] => .error .unknownArgument
    | _, 0x2D :: text => r.letters text
    | _, _ => .error .unknownArgument

/-- Fills in what the environment says of an option that was not given. -/
def fill (r : Reading) (entry : Opt × Option Bytes) : Except Usage Reading :=
  match entry with
  | (o, some raw) => if o ∈ r.seen then .ok r else r.apply o raw
  | (_, none) => .ok r

end Reading

namespace Args

/-- Reads a command line with what the environment says of the options that it can stand in
for. -/
def parse (given : List (Opt × Option Bytes)) (argv : List Bytes) : Except Usage Args := do
  let read ← argv.foldlM Reading.step {}
  let settled ← read.settle
  let filled ← given.foldlM Reading.fill settled
  if filled.args.verbose ∧ filled.args.quiet then throw .conflict
  return filled.args

/-- Asks for the variables of some options. -/
def askVariables : List Opt → Program (List (Opt × Option Bytes))
  | [] => return []
  | o :: rest => do
    match o.variableName? with
    | none => askVariables rest
    | some name =>
      let value ← Program.request (.variable name)
      return (o, value) :: (← askVariables rest)

/-- Reads a command line in its environment. -/
def read (argv : List Bytes) : Program (Except Usage Args) := do
  return parse (← askVariables Opt.withVariable) argv

end Args

end LayerPack
