import LayerPack.Machine.Basic

/-! Collaborators that follow a script: each call puts files into the directory that it is given,
and then never ends, fails or succeeds. A successful removal or install is remembered. -/
namespace LayerPack

/-- One thing to put on a disk, in directories that are made as needed. -/
inductive Planting where
  | file (path : Path) (mode : Nat) (content : ByteArray)
  | dir (path : Path)
  | link (path : Path) (target : Bytes)
  /-- Takes away whatever is there. -/
  | remove (path : Path)

namespace Planting

def withParent (d : Disk) (cwd : Place) (p : Path) : Except SystemError Disk :=
  match p.parent? with
  | some up => if up.isEmpty then .ok d else d.mkdirs cwd up
  | none => .ok d

def apply (d : Disk) (cwd : Place) (base : Path) : Planting → Except SystemError Disk
  | file path mode content => d.plant cwd (base.join path) mode content
  | dir path => d.mkdirs cwd (base.join path)
  | link path target => do
    let p := base.join path
    (← withParent d cwd p).symlink cwd target p
  | remove path =>
    let p := base.join path
    match d.kind? cwd false p with
    | some .dir => .ok (d.removeTree cwd p).2
    | some _ => d.unlink cwd p
    | none => .ok d

/-- Applies all of them in order; what cannot be done is left out. -/
def applyAll (d : Disk) (cwd : Place) (base : Path) (plantings : List Planting) : Disk :=
  plantings.foldl (fun d p => (p.apply d cwd base).toOption.getD d) d

end Planting

/-- What a collaborator does when it is called. -/
structure Script where
  files : List Planting := []
  hang : Bool := false
  error : Option Error := none

namespace Script

/-- The directory that a call may write to. -/
def directoryOf : Call → Option Path
  | .build _ dist => some dist
  | .installInto _ target => some target
  | _ => none

def plant (s : Script) (call : Call) (m : Machine) : Machine :=
  match directoryOf call with
  | some dir => { m with disk := Planting.applyAll m.disk m.cwd dir s.files }
  | none => m

/-- The answer of a call that succeeds. -/
def succeed (m : Machine) : (call : Call) → call.Result × Machine
  | .build .. | .installInto .. => ((), m)
  | .isInstalled _ => (m.installed, m)
  | .uninstall _ => ((), { m with installed := false })
  | .install _ => ((), { m with installed := true })

def perform (s : Script) (call : Call) (m : Machine) :
    Option (Except Error call.Result) × Machine :=
  let m := s.plant call m
  if s.hang then (none, m)
  else
    match s.error with
    | some e => (some (.error e), m)
    | none =>
      match succeed m call with
      | (result, m) => (some (.ok result), m)

end Script

/-- Collaborators that follow scripts, next to other programs that never end. -/
def Outside.scripted (script : Call → Script) : Outside where
  collaborate call m := (script call).perform call m
  process _ _ m := (none, m)

end LayerPack
