import LayerPack.Host.Files
import LayerPack.Wheel.Name

/-! Finding the wheel of a project in a directory. Exactly one file must belong to the project:
the first of several could be a stale one. -/
namespace LayerPack

namespace Wheel

open Program

/-- Something is there, be it a link that leads nowhere. -/
def isThere (p : Path) : Program Bool := do
  match ← Files.stat p with
  | .ok _ => return true
  | .error _ =>
    match ← Files.lstat p with
    | .ok _ => return true
    | .error _ => return false

/-- Goes down from a path part by part. The current directory is not written down, an empty part
adds a slash, and dots are kept. -/
def descend (here : Path) : List String → Program (Option Path)
  | [] => return some here
  | part :: rest => do
    let next := if here.components = [.current] then .ofString part else here.join (.ofString part)
    let found ← (if part = "." ∨ part = ".." then Files.isDir here else isThere next)
    if found then descend next rest else return none

/-- The path by which the files of a directory are named. The text of the path leads there, so
what is not text in it is looked for with replacement characters. -/
def scanned (dir : Path) : Program (Option Path) :=
  match Text.splitAll '/' (dir.display ++ "/").toList with
  | [] :: parts => descend (.ofString "/") (parts.dropLast.map String.ofList)
  | parts => descend (.ofString ".") (parts.dropLast.map String.ofList)

/-- The wheels in a directory in the order of their names. A name that is not text is passed
over, and a directory that cannot be listed is a failure. -/
def candidates (dir : Path) : Program (Except Error (List Path)) := do
  match ← scanned dir with
  | none => return .ok []
  | some here =>
    if ← Files.isDir here then
      match ← request (.list here) with
      | .error e => return .error (.files "scanning for distributions" here e)
      | .ok names =>
        let wheels := (names.mergeSort Bytes.le).filter fun name =>
          isWheelName name && (Bytes.toText? name).isSome
        return .ok (wheels.map fun name =>
          if here.components = [.current] then ⟨name⟩ else here.child name)
    else return .ok []

/-- The files among the candidates that belong to a project. -/
def matching (project : String) : List Path → Program (List Path)
  | [] => return []
  | p :: rest => do
    if ← Files.isFile p then
      if belongsTo project p then
        request (.log .debug ("  ✓ Candidate: " ++ p.display))
        return p :: (← matching project rest)
      else
        request (.log .debug ("  Skipping unrelated file: " ++ p.display))
        matching project rest
    else matching project rest

/-- The one wheel of a project in a directory. -/
def select (dir : Path) (project : String) : Work Wheel := do
  let found ← Work.ofExcept (← Work.now (candidates dir))
  let found ← Work.now (matching project found)
  match found.mergeSort Path.le with
  | [p] => return ofPath p
  | [] =>
    let contents ← Work.ofExcept (← Work.await (Files.listNames dir))
    Work.fail (.noWheel project dir contents)
  | several => Work.fail (.ambiguousWheel project dir several)

end Wheel

end LayerPack
