import LayerPack.Host.Program

/-! The collaborators of a run, seen from the run: something that answers calls. -/
namespace LayerPack

structure Toolchain where
  perform : (call : Call) → Work call.Result

namespace Toolchain

open Program

/-- Waits for the answer of whoever is outside. -/
def askOutside (call : Call) : Work call.Result := fun deadline =>
  match deadline with
  | none => ask (.collaborate call none) fun
    | .ok answer => done (.ok answer)
    | .error e => done (.error (.failed e))
  | some limit => ask (.collaborate call (some limit)) fun
    | none => done (.error .late)
    | some (.ok answer) => done (.ok answer)
    | some (.error e) => done (.error (.failed e))

/-- Collaborators outside of the program. -/
def outside : Toolchain := ⟨askOutside⟩

end Toolchain

end LayerPack
