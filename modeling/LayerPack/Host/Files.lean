import LayerPack.Disk.Walk
import LayerPack.Host.Program
import LayerPack.Toml.Value

/-! Programs on files that more than one part of a run uses: making directories, removing whatever
occupies a path, listing, walking and reading in chunks. -/
namespace LayerPack.Files

open Program

def stat (p : Path) : Program (Except SystemError Stat) := request (.stat true p)

/-- The status of what a path names, also if that is a link. -/
def lstat (p : Path) : Program (Except SystemError Stat) := request (.stat false p)

def mkdir (p : Path) : Program (Except SystemError Unit) := request (.mkdir p)

def unlink (p : Path) : Program (Except SystemError Unit) := request (.unlink p)

def removeTree (p : Path) : Program (Except SystemError Unit) := request (.removeTree p)

def rename (src dst : Path) : Program (Except SystemError Unit) := request (.rename src dst)

def openRead (p : Path) : Program (Except SystemError OpenFile) := request (.openRead p)

def kindIs (kind : Kind) (p : Path) : Program Bool := do
  match ← stat p with
  | .ok s => return s.kind = kind
  | .error _ => return false

def isDir (p : Path) : Program Bool := kindIs .dir p

def isFile (p : Path) : Program Bool := kindIs .file p

/-- Makes a directory; one that is already there is fine. -/
def makeDir (p : Path) : Program (Except SystemError Unit) := do
  match ← mkdir p with
  | .ok () => return .ok ()
  | .error e => if ← isDir p then return .ok () else return .error e

def makeDirsWithin : Nat → Path → Program (Except SystemError Unit)
  | 0, p => makeDir p
  | fuel + 1, p => do
    if p.isEmpty then return .ok ()
    match ← mkdir p with
    | .ok () => return .ok ()
    | .error e =>
      if e = .noEntry then
        match p.parent? with
        | none => return .error e
        | some up =>
          match ← makeDirsWithin fuel up with
          | .error e => return .error e
          | .ok () => makeDir p
      else if ← isDir p then return .ok ()
      else return .error e

/-- Makes a directory together with those above it that are missing. A path has at most as many
ancestors as bytes. -/
def makeDirs (p : Path) : Program (Except SystemError Unit) :=
  makeDirsWithin (p.bytes.length + 1) p

/-- Removes whatever occupies a path: a tree, a file or a link, which is not followed. Answers
whether something was there. -/
def removePath (p : Path) : Program (Except SystemError Bool) := do
  match ← lstat p with
  | .error e => return if e = .noEntry then .ok false else .error e
  | .ok s =>
    match ← (if s.kind = .dir then removeTree p else unlink p) with
    | .ok () => return .ok true
    | .error e => return if e = .noEntry then .ok false else .error e

/-- The names in a directory as text, sorted. A missing directory has none. -/
def listNames (dir : Path) : Program (Except Error (List String)) := do
  match ← request (.list dir) with
  | .ok names => return .ok ((names.map Bytes.display).mergeSort Toml.keyLe)
  | .error e => return if e = .noEntry then .ok [] else .error (.files "reading directory" dir e)

def walkFailure (e : WalkError) : Error :=
  .files "walking directory" e.path
    (.text ("IO error for operation on " ++ e.path.display ++ ": " ++ e.error.message))

/-- The regular files at and below a path in the component-wise order of paths. Links below the
path are not followed; the path itself may be a link to a directory. -/
def collect (root : Path) : Program (Except Error (List Path)) := do
  match ← lstat root with
  | .error e => return .error (walkFailure ⟨root, e⟩)
  | .ok s =>
    match s.kind with
    | .file => return .ok [root]
    | .dir => below
    | .link =>
      match ← stat root with
      | .error e => return .error (walkFailure ⟨root, e⟩)
      | .ok s => if s.kind = .dir then below else return .ok []
where
  below : Program (Except Error (List Path)) := do
    match ← request (.snapshot root) with
    | .error e => return .error (walkFailure ⟨root, e⟩)
    | .ok node => return (node.filesBelow root).mapError walkFailure

/-- How many bytes a read takes: at least one and at most the buffer, if any are left. -/
def taken (buffer granted left : Nat) : Nat := min left (max 1 (min buffer granted))

theorem extract_size_lt (unread : ByteArray) (buffer granted : Nat) (h : unread.size ≠ 0) :
    (unread.extract (taken buffer granted unread.size) unread.size).size < unread.size := by
  simp only [ByteArray.size_extract, taken]
  omega

/-- Reads an open file to its end through a buffer, onto what was read before. -/
def readFrom (buffer : Nat) (held : ByteArray) : OpenFile → Program (Except SystemError ByteArray)
  | .directory => .ask (.read .directory buffer) fun
    | .ok _ => .done (.ok held)
    | .error e => .done (.error e)
  | .data unread => .ask (.read (.data unread) buffer) fun
    | .error e => .done (.error e)
    | .ok granted =>
      if _ : unread.size = 0 then .done (.ok held)
      else
        let n := taken buffer granted unread.size
        readFrom buffer (held ++ unread.extract 0 n) (.data (unread.extract n unread.size))
termination_by file => match file with
  | .directory => 0
  | .data unread => unread.size
decreasing_by exact extract_size_lt unread buffer granted ‹_›

def readAll (buffer : Nat) (file : OpenFile) : Program (Except SystemError ByteArray) :=
  readFrom buffer .empty file

/-- The buffer of a read of a whole text. -/
def textBuffer : Nat := 8192

/-- Reads a file that must hold UTF-8. -/
def readText (p : Path) : Program (Except SystemError String) := do
  match ← openRead p with
  | .error e => return .error e
  | .ok file =>
    match ← readAll textBuffer file with
    | .error e => return .error e
    | .ok content =>
      match String.fromUTF8? content with
      | some text => return .ok text
      | none => return .error .notText

end LayerPack.Files
