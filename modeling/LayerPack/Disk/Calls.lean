import LayerPack.Disk.Lookup

/-! The operations on a disk. Each takes the directory that relative paths start from, and leaves
the disk as it was when it fails; only the removal of a tree can fail half way. -/
namespace LayerPack

inductive Kind where
  | file
  | dir
  | link
  deriving DecidableEq

structure Stat where
  kind : Kind
  mode : Nat
  size : Nat
  deriving DecidableEq

/-- An open file: its place and its number. -/
structure Handle where
  place : Place
  id : Nat
  deriving DecidableEq

/-- A file opened for reading: the bytes that have not been read yet. A directory can be opened
but not read. -/
inductive OpenFile where
  | directory
  | data (unread : ByteArray)

namespace Node

def kind : Node → Kind
  | file .. => .file
  | link _ => .link
  | dir _ => .dir

def stat : Node → Stat
  | file _ mode content => ⟨.file, mode, content.size⟩
  | link target => ⟨.link, 0o777, target.length⟩
  | dir _ => ⟨.dir, 0o755, 4096⟩

end Node

namespace Disk

def get? (d : Disk) (place : Place) : Option Node := d.root.get? place

/-- Puts a node at a place below an existing directory. -/
def put (d : Disk) (place : Place) (node : Node) : Disk :=
  { d with root := d.root.alter (fun _ => some node) place }

/-- Takes away what stands at a place. -/
def erase (d : Disk) (place : Place) : Disk :=
  { d with root := d.root.alter (fun _ => none) place }

def stat (d : Disk) (cwd : Place) (follow : Bool) (p : Path) : Except SystemError Stat := do
  return (← d.resolve cwd follow p).2.stat

def kind? (d : Disk) (cwd : Place) (follow : Bool) (p : Path) : Option Kind :=
  (d.resolve cwd follow p).toOption.map (·.2.kind)

/-- The names in a directory in listing order. -/
def list (d : Disk) (cwd : Place) (p : Path) : Except SystemError (List Name) := do
  match (← d.resolve cwd true p).2 with
  | .dir es => return es.map (·.1)
  | _ => throw .notDirectory

/-- A copy of what a path leads to, as it is now. -/
def snapshot (d : Disk) (cwd : Place) (p : Path) : Except SystemError Node := do
  return (← d.resolve cwd true p).2

def openRead (d : Disk) (cwd : Place) (p : Path) : Except SystemError OpenFile := do
  match (← d.resolve cwd true p).2 with
  | .file _ _ content => return .data content
  | _ => return .directory

def mkdir (d : Disk) (cwd : Place) (p : Path) : Except SystemError Disk := do
  match ← d.lookupParent cwd p with
  | (parent, .name name _) =>
    match d.get? (parent ++ [name]) with
    | some _ => throw .exists_
    | none => return d.put (parent ++ [name]) (.dir [])
  | _ => throw .exists_

def unlink (d : Disk) (cwd : Place) (p : Path) : Except SystemError Disk := do
  match ← d.lookupParent cwd p with
  | (parent, .name name slashed) =>
    match d.get? (parent ++ [name]) with
    | none => throw .noEntry
    | some (.dir _) => throw .isDirectory
    | some _ => if slashed then throw .notDirectory else return d.erase (parent ++ [name])
  | _ => throw .isDirectory

def rmdir (d : Disk) (cwd : Place) (p : Path) : Except SystemError Disk := do
  match ← d.lookupParent cwd p with
  | (parent, .name name _) =>
    match d.get? (parent ++ [name]) with
    | none => throw .noEntry
    | some (.dir []) => return d.erase (parent ++ [name])
    | some (.dir _) => throw .notEmpty
    | some _ => throw .notDirectory
  | (_, .dot) => throw .invalid
  | (_, .dotdot) => throw .notEmpty
  | (_, .root) => throw .busy

/-- Removes a directory with everything in it. Links in it are removed, not followed. The
directory is emptied first, which stays done if the directory itself cannot be removed. -/
def removeTree (d : Disk) (cwd : Place) (p : Path) : Except SystemError Unit × Disk :=
  match d.resolve cwd false p with
  | .error e => (.error e, d)
  | .ok (_, .file ..) => (.error .notDirectory, d)
  | .ok (_, .link _) =>
    match d.unlink cwd p with
    | .error e => (.error e, d)
    | .ok d' => (.ok (), d')
  | .ok (place, .dir _) =>
    let emptied := d.put place (.dir [])
    match emptied.rmdir cwd p with
    | .error e => (.error e, emptied)
    | .ok d' => (.ok (), d')

/-- Why a node cannot take the place of another: a directory only replaces an empty directory, and
all else replaces anything but a directory. -/
def replaceError (node : Node) : Option Node → Option SystemError
  | none => none
  | some (.dir es) =>
    if !node.isDir then some .isDirectory else if es.length > 0 then some .notEmpty else none
  | some _ => if node.isDir then some .notDirectory else none

/-- Moves what stands at a place to a name in a directory; `slashed` if one of the two paths ended
in a slash. -/
def move (d : Disk) (src dstDir : Place) (dstName : Name) (slashed : Bool) :
    Except SystemError Disk :=
  match d.get? src with
  | none => .error .noEntry
  | some node =>
    if !node.isDir && slashed then .error .notDirectory
    else if node.isDir && src.isPrefixOf dstDir then .error .invalid
    else if src = dstDir ++ [dstName] then .ok d
    else
      match replaceError node (d.get? (dstDir ++ [dstName])) with
      | some e => .error e
      | none => .ok ((d.erase src).put (dstDir ++ [dstName]) node)

/-- Moves what one path names to another name; a file or link that has that name is replaced. -/
def rename (d : Disk) (cwd : Place) (src dst : Path) : Except SystemError Disk := do
  match ← d.lookupParent cwd src, ← d.lookupParent cwd dst with
  | (srcDir, .name srcName srcSlash), (dstDir, .name dstName dstSlash) =>
    d.move (srcDir ++ [srcName]) dstDir dstName (srcSlash || dstSlash)
  | _, _ => throw .busy

/-- The mode of a new file. -/
def newMode : Nat := 0o644

/-- Opens a file for writing and makes it if it is missing; a link to a missing file makes that
file. An old content is dropped if `truncate` is on. -/
def openWrite (d : Disk) (cwd : Place) (truncate : Bool) (p : Path) :
    Except SystemError (Handle × Disk) := do
  match ← d.lookup cwd true p with
  | .found place (.file id mode _) =>
    return (⟨place, id⟩, if truncate then d.put place (.file id mode .empty) else d)
  | .found .. => throw .isDirectory
  | .absent parent name slashed =>
    if slashed then throw .isDirectory
    else
      let place := parent ++ [name]
      return (⟨place, d.nextId⟩,
        { d.put place (.file d.nextId newMode .empty) with nextId := d.nextId + 1 })

/-- Adds bytes at the end of an open file. Nothing is seen of it once the file has lost its
name. -/
def append (d : Disk) (h : Handle) (bytes : ByteArray) : Disk :=
  match d.get? h.place with
  | some (.file id mode content) =>
    if id = h.id then d.put h.place (.file id mode (content ++ bytes)) else d
  | _ => d

def symlink (d : Disk) (cwd : Place) (target : Bytes) (p : Path) : Except SystemError Disk := do
  match ← d.lookupParent cwd p with
  | (parent, .name name slashed) =>
    if slashed then throw .noEntry
    match d.get? (parent ++ [name]) with
    | some _ => throw .exists_
    | none => return d.put (parent ++ [name]) (.link target)
  | _ => throw .exists_

def chmod (d : Disk) (cwd : Place) (mode : Nat) (p : Path) : Except SystemError Disk := do
  match ← d.resolve cwd true p with
  | (place, .file id _ content) => return d.put place (.file id mode content)
  | _ => return d

/-- Makes a directory and those above it that are missing. -/
def mkdirs (d : Disk) (cwd : Place) (p : Path) : Except SystemError Disk :=
  let prefixes := (List.range (p.bytes.length + 1)).filterMap fun n =>
    if n = p.bytes.length ∨ p.bytes[n]? = some slash then some (⟨p.bytes.take n⟩ : Path) else none
  prefixes.foldlM (fun (d : Disk) q =>
    if q.isEmpty then .ok d
    else match d.mkdir cwd q with
      | .ok d' => .ok d'
      | .error e => if d.kind? cwd true q = some .dir then .ok d else .error e) d

/-- Writes a whole file with a mode of its own, in directories that are made as needed. -/
def plant (d : Disk) (cwd : Place) (p : Path) (mode : Nat) (content : ByteArray) :
    Except SystemError Disk := do
  let d ← match p.parent? with
    | some up => if up.isEmpty then pure d else d.mkdirs cwd up
    | none => pure d
  let (h, d) ← d.openWrite cwd true p
  (d.append h content).chmod cwd mode p

end Disk

end LayerPack
