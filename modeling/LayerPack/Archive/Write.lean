import LayerPack.Archive.Digest
import LayerPack.Zip.Writer

/-! Writing the archive of a tree. It is first written to a hidden file beside the output and then
renamed, so that the output either holds a finished archive or is left alone. When the work stops
early, the hidden file is removed. -/
namespace LayerPack.Archive

open Program

/-- A finished archive. -/
structure Summary where
  path : Path
  files : Nat
  bytes : Nat
  sha256 : String
  deriving DecidableEq

def copyBuffer : Nat := 65536

/-- The name of the hidden file of an output. -/
def partialName (output : Path) (fresh : String) : Name :=
  let shown := match output.fileName? with
    | some name => Bytes.display name
    | none => "layer.zip"
  Bytes.ofString ("." ++ shown ++ "." ++ fresh ++ ".partial")

def partialPath (output : Path) (fresh : String) : Path :=
  output.withFileName (partialName output fresh)

def removePartial (p : Path) : Program Unit := do
  match ← Files.unlink p with
  | .ok () => request (.log .debug ("Removed partial archive " ++ p.display))
  | .error e =>
    if e = .noEntry then return ()
    else request (.log .warn
      ("Failed to remove partial archive " ++ p.display ++ ": " ++ e.message))

/-- A failed system call while an archive is written. -/
def failing (what : String) (e : SystemError) : String := what ++ ": " ++ e.message

/-- Reads one file as an entry. -/
def readEntry (root p : Path) : Program (Except String Zip.Entry) := do
  match entryName root p with
  | .error reason => return .error reason
  | .ok name =>
    match ← Files.stat p with
    | .error e => return .error (failing ("reading " ++ p.display) e)
    | .ok status =>
      match ← Files.openRead p with
      | .error e => return .error (failing ("opening " ++ p.display) e)
      | .ok file =>
        match ← Files.readAll copyBuffer file with
        | .error e => return .error (failing ("reading " ++ p.display) e)
        | .ok content => return .ok ⟨name, status.mode % 0o1000, content⟩

def readEntries (root : Path) : List Path → Program (Except String (List Zip.Entry))
  | [] => return .ok []
  | p :: rest => do
    match ← readEntry root p with
    | .error reason => return .error reason
    | .ok entry =>
      match ← readEntries root rest with
      | .error reason => return .error reason
      | .ok entries => return .ok (entry :: entries)

/-- Writes the files of a tree to a new file. -/
def writeZip (root : Path) (files : List Path) (destination : Path) :
    Program (Except String Unit) := do
  match ← request (.openWrite true destination) with
  | .error e => return .error (failing ("creating " ++ destination.display) e)
  | .ok handle =>
    match ← readEntries root files with
    | .error reason => return .error reason
    | .ok entries =>
      match ← request (.append handle (Zip.encode entries)) with
      | .error e => return .error (failing "finalizing archive" e)
      | .ok () =>
        match ← request (.sync handle) with
        | .error e => return .error (failing "syncing archive" e)
        | .ok () => return .ok ()

/-- The size and the digest of what has been written. -/
def measure (destination : Path) : Program (Except String (Nat × String)) := do
  match ← Files.stat destination with
  | .error e => return .error (failing "reading archive metadata" e)
  | .ok status =>
    match ← fileDigest destination with
    | .error e => return .error e.message
    | .ok digest => return .ok (status.size, digest)

def writeAndMeasure (root : Path) (files : List Path) (destination : Path) :
    Program (Except String (Nat × String)) := do
  match ← writeZip root files destination with
  | .error reason => return .error reason
  | .ok () => measure destination

/-- Writes and measures the hidden file, and removes it again on failure. -/
def writePartial (root : Path) (files : List Path) (destination : Path) :
    Program (Except String (Nat × String)) := do
  match ← writeAndMeasure root files destination with
  | .error reason =>
    removePartial destination
    return .error reason
  | .ok measured => return .ok measured

/-- Writes the hidden file and moves it to the output. -/
def writeAndMove (root : Path) (files : List Path) (hidden output : Path) :
    Work (Nat × String) := do
  let written ← Work.await (writePartial root files hidden)
  let measured ← Work.ofExcept (written.mapError (.archive output))
  let moved ← Work.now (Files.rename hidden output)
  Work.ofExcept (moved.mapError fun e =>
    .archive output (failing ("moving " ++ hidden.display ++ " into place") e))
  return measured

def makeParent (output : Path) : Work Unit :=
  match output.parent? with
  | none => pure ()
  | some up => do
    let made ← Work.await (Files.makeDirs up)
    Work.ofExcept (made.mapError fun e =>
      .archive output (failing ("creating " ++ up.display) e))

/-- The files that go into an archive. There must be some, and there is a directory for the
output. -/
def prepare (root output : Path) : Work (List Path) := do
  Work.now (request (.log .info ("Archiving " ++ root.display ++ " into " ++ output.display)))
  let collected ← Work.await (Files.collect root)
  let files ← Work.ofExcept (collected.mapError fun e => .archive output e.message)
  Work.failIf files.isEmpty (.archive output
    (root.display ++ " contains no files; the install step produced nothing to package"))
  makeParent output
  return files

/-- Archives files; the hidden file does not stay behind. -/
def deliver (root output : Path) (files : List Path) : Work (Nat × String) := do
  let hidden := partialPath output (← Work.now (request .freshName))
  (writeAndMove root files hidden output).onStop (removePartial hidden)

/-- Archives every regular file below a root. -/
def write (root output : Path) : Work Summary := do
  let files ← prepare root output
  let (bytes, sha256) ← deliver root output files
  Work.now (request (.log .info ("✓ Created " ++ output.display ++ " (" ++
    toString files.length ++ " files, " ++ toString bytes ++ " bytes)")))
  return ⟨output, files.length, bytes, sha256⟩

end LayerPack.Archive
