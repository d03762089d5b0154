import LayerPack.Disk.Calls

/-! The regular files below a directory: directories are gone through depth first, the entries of
each in the order of their names, and links are not followed. -/
namespace LayerPack

structure WalkError where
  path : Path
  error : SystemError

namespace Node

mutual
/-- The regular files of a tree that stands at `p`. A directory whose path is too long cannot be
read. -/
def filesAt (p : Path) : Node → Except WalkError (List Path)
  | file .. => .ok [p]
  | link _ => .ok []
  | dir es =>
    if p.bytes.length > Disk.maxPath then .error ⟨p, .nameTooLong⟩ else filesAtAll p es

def filesAtAll (p : Path) : List (Name × Node) → Except WalkError (List Path)
  | [] => .ok []
  | (name, node) :: rest =>
    match node.filesAt (p.child name) with
    | .error e => .error e
    | .ok here => (filesAtAll p rest).map (here ++ ·)
end

/-- The regular files below a directory in the component-wise order of their paths. -/
def filesBelow (p : Path) (node : Node) : Except WalkError (List Path) := node.arrange.filesAt p

/-- The regular files of a tree, each with its place in it, in the same order. -/
def regularFiles (node : Node) : List (List Name × Nat × ByteArray) :=
  node.arrange.leaves.filterMap fun
    | (place, .file _ mode content) => some (place, mode, content)
    | _ => none

end Node

end LayerPack
