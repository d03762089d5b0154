import LayerPack.Path.Basic

/-! The names of files inside an archive: the path below the root of the tree, joined with
slashes. Where the tree stands on disk never shows. -/
namespace LayerPack.Archive

/-- The names among components that a name inside an archive is made of. A dot adds nothing. -/
def partsOf (path : Path) : List Component → Except String (List String)
  | [] => .ok []
  | .normal name :: rest => do
    match Bytes.toText? name with
    | some text => return text :: (← partsOf path rest)
    | none => throw (path.display ++ " is not valid UTF-8")
  | .current :: rest => partsOf path rest
  | _ :: _ => throw (path.display ++ " cannot be archived")

/-- The name of a path below a root. It is purely lexical. -/
def entryName (root path : Path) : Except String String := do
  match Path.below? root path with
  | none => throw (path.display ++ " is outside " ++ root.display)
  | some components =>
    match ← partsOf path components with
    | [] => throw (path.display ++ " has no name inside the archive")
    | parts => return "/".intercalate parts

end LayerPack.Archive
