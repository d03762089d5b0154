import LayerPack.Host.Files

/-! The directory that a run works in. Whatever is found at its path is removed before anything is
put there, so no run sees what another one left behind. -/
namespace LayerPack

structure Workspace where
  root : Path
  deriving DecidableEq

namespace Workspace

open Program

/-- The default directory for wheels. -/
def dist (w : Workspace) : Path := w.root.join (.ofString "dist")

/-- The tree that goes into the archive. -/
def target (w : Workspace) : Path := w.root.join (.ofString "target")

/-- Where the installer writes: the tree itself, or the prefix below it. -/
def installDir (w : Workspace) : Option Path → Path
  | some p => w.target.join p
  | none => w.target

def logRemoved (root : Path) (removed : Bool) : Program Unit :=
  if removed then request (.log .info ("Removed previous workspace at " ++ root.display))
  else return ()

def ofSystem {α : Type} (root : Path) : Except SystemError α → Except Error α :=
  Except.mapError (.workspace root)

/-- An empty workspace; a tree, file or link at its path is removed. -/
def prepare (root : Path) : Work Workspace := do
  let removed ← Work.await (Files.removePath root)
  let removed ← Work.ofExcept (ofSystem root removed)
  Work.now (logRemoved root removed)
  let w : Workspace := ⟨root⟩
  let made ← Work.await (Files.makeDirs w.dist)
  Work.ofExcept (ofSystem root made)
  let made ← Work.await (Files.makeDirs w.target)
  Work.ofExcept (ofSystem root made)
  Work.now (request (.log .debug ("Prepared workspace at " ++ root.display)))
  return w

/-- Removes the workspace; a missing one is fine. -/
def cleanup (w : Workspace) : Program (Except Error Unit) := do
  let removed ← Files.removePath w.root
  return ofSystem w.root (removed.map fun _ => ())

end Workspace

end LayerPack
