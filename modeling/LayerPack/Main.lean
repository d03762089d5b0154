import LayerPack.CommandLine.Execute

/-! The program on a real host: every request is answered by the operating system as far as it can
be asked from here. Other programs cannot be started from here, so a command that is to be run
answers that this is not supported. -/
namespace LayerPack.Host

/-- What the host remembers between requests: the open files and the start of its clock. -/
structure Session where
  files : IO.Ref (List (Nat × IO.FS.Handle))
  /-- Milliseconds between the clock of the machine and the one that only counts up. -/
  offset : Nat

def errorOf : IO.Error → SystemError
  | .alreadyExists _ n _ | .otherError n _ | .resourceBusy n _ | .resourceVanished n _
  | .unsupportedOperation n _ | .hardwareFault n _ | .unsatisfiedConstraints n _
  | .illegalOperation n _ | .protocolError n _ | .timeExpired n _ | .interrupted _ n _
  | .noFileOrDirectory _ n _ | .invalidArgument _ n _ | .permissionDenied _ n _
  | .resourceExhausted _ n _ | .inappropriateType _ n _ | .noSuchThing _ n _ => .code n.toNat
  | .unexpectedEof => .ioError
  | .userError message => .text message

def attempt {α : Type} (action : IO α) : IO (Except SystemError α) := do
  try return .ok (← action)
  catch e => return .error (errorOf e)

/-- Does something with a path that the host can be given. -/
def withPath {α : Type} (p : Path) (action : String → IO α) : IO (Except SystemError α) := do
  if p.bytes.contains 0 then return .error .nulInPath
  match Bytes.toText? p.bytes with
  | some text => if text = "" then return .error .noEntry else attempt (action text)
  | none => return .error (.code 84)

/-- The rights of a file are not known here: whoever may run it is found out by running it. -/
def statOf (m : IO.FS.Metadata) : Stat :=
  let kind : Kind := match m.type with
    | .dir => .dir
    | .symlink => .link
    | _ => .file
  ⟨kind, 0o755, m.byteSize.toNat⟩

def stat (follow : Bool) (text : String) : IO Stat := do
  let base ← IO.currentDir
  let m ← if follow then (base / text).metadata else (base / text).symlinkMetadata
  return statOf m

def names (text : String) : IO (List Name) := do
  let base ← IO.currentDir
  return ((← (base / text).readDir).map fun entry => Bytes.ofString entry.fileName).toList

/-- A copy of a tree. Links in it are followed no further than to note that they are there. -/
partial def snapshot (follow : Bool) (text : String) : IO Node := do
  match (← stat follow text).kind with
  | .file => return .file 0 0o644 (← IO.FS.readBinFile ⟨text⟩)
  | .link => return .link []
  | .dir =>
    let entries ← (← names text).mapM fun name => do
      let node ← snapshot false (text ++ "/" ++ Bytes.display name)
      return (name, node)
    return .dir entries

def openRead (text : String) : IO OpenFile := do
  match (← stat true text).kind with
  | .dir => return .directory
  | _ => return .data (← IO.FS.readBinFile ⟨text⟩)

def openWrite (s : Session) (truncate : Bool) (p : Path) (text : String) : IO Handle := do
  let file ← IO.FS.Handle.mk ⟨text⟩ (if truncate then .write else .append)
  let id := (← s.files.get).foldl (fun n (id, _) => max n (id + 1)) 0
  s.files.modify ((id, file) :: ·)
  return ⟨p.namesFrom ⟨[slash]⟩, id⟩

def withFile {α : Type} (s : Session) (h : Handle) (action : IO.FS.Handle → IO α) :
    IO (Except SystemError α) := do
  match (← s.files.get).lookup h.id with
  | some file => attempt (action file)
  | none => return .error (.code 9)

def lock (s : Session) (h : Handle) : IO (Except SystemError Unit) := do
  match ← withFile s h (·.tryLock) with
  | .ok true => return .ok ()
  | .ok false => return .error .wouldBlock
  | .error e => return .error e

/-- Sixteen random bytes in groups of digits. -/
def freshName : IO String := do
  let digits := (← IO.getRandomBytes 16).data.toList.map Text.hexByte
  let part (start count : Nat) : String := String.join ((digits.drop start).take count)
  return "-".intercalate [part 0 4, part 4 2, part 6 2, part 8 2, part 10 6]

def print (stream : Stream) (text : String) : IO Unit := do
  let file ← match stream with
    | .out => IO.getStdout
    | .err => IO.getStderr
  file.putStr text
  file.flush

def answer (s : Session) : (q : Request) → IO q.Reply
  | .stat follow p => withPath p (stat follow)
  | .list p => withPath p names
  | .snapshot p => withPath p (snapshot true)
  | .openRead p => withPath p openRead
  | .read .directory _ => return .error .isDirectory
  | .read (.data _) buffer => return .ok buffer
  | .mkdir p => withPath p fun text => IO.FS.createDir ⟨text⟩
  | .unlink p => withPath p fun text => IO.FS.removeFile ⟨text⟩
  | .removeTree p => withPath p fun text => IO.FS.removeDirAll ⟨text⟩
  | .rename src dst => do
    match Bytes.toText? dst.bytes with
    | some target => withPath src fun text => IO.FS.rename ⟨text⟩ ⟨target⟩
    | none => return .error (.code 84)
  | .openWrite truncate p => withPath p (openWrite s truncate p)
  | .append h bytes => withFile s h (·.write bytes)
  | .sync h => withFile s h (·.flush)
  | .lock h => lock s h
  | .unlock h => do
    let _ ← withFile s h (·.unlock)
    s.files.modify (·.filter (·.1 ≠ h.id))
  | .workingDirectory => attempt do return .ofString (← IO.currentDir).toString
  | .variable name => do return (← IO.getEnv name).map Bytes.ofString
  | .clock => do return s.offset + (← IO.monoMsNow)
  | .freshName => freshName
  | .run _ none => return .error .unsupported
  | .run _ (some _) => return some (.error .unsupported)
  | .collaborate _ none => return .error (.other "no collaborator")
  | .collaborate _ (some _) => return some (.error (.other "no collaborator"))
  | .log .. => return ()
  | .print stream text => attempt (print stream text)

/-- Carries out a program. -/
def perform {α : Type} (s : Session) : Program α → IO α
  | .done a => return a
  | .ask q next => do
    let reply ← answer s q
    perform s (next reply)

/-- The time at which this process began, in milliseconds, as its entry in the system shows it. -/
def startTime : IO Nat := do
  try
    let m ← ((← IO.currentDir) / "/proc/self/stat").metadata
    return m.modified.sec.toNat * 1000 + m.modified.nsec.toNat / 1000000
  catch _ => return 0

end LayerPack.Host

open LayerPack in
def main (args : List String) : IO UInt32 := do
  let files ← IO.mkRef []
  let now ← IO.monoMsNow
  let s : Host.Session := { files, offset := (← Host.startTime) - now }
  let code ← Host.perform s (CommandLine.main (args.map Bytes.ofString))
  return code.toUInt32
