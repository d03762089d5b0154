import LayerPack.Command
import LayerPack.Disk.Calls
import LayerPack.Error

/-! Everything that a run can ask of the world around it, and the type of each answer. The program
is written against these requests alone, so what it does can be stated for every way in which they
are answered. -/
namespace LayerPack

inductive Level where
  | error
  | warn
  | info
  | debug
  deriving DecidableEq

def Level.name : Level → String
  | error => "ERROR"
  | warn => "WARN"
  | info => "INFO"
  | debug => "DEBUG"

/-- The two outputs of the program. -/
inductive Stream where
  | out
  | err
  deriving DecidableEq

/-- A call of one of the collaborators of a run: the build tool, the installer of the isolated
target, and the active environment. -/
inductive Call where
  | build (source dist : Path)
  | installInto (wheel target : Path)
  | isInstalled (project : String)
  | uninstall (project : String)
  | install (wheel : Path)
  deriving DecidableEq

namespace Call

/-- Only the question whether a project is installed has an answer of its own. -/
abbrev Result : Call → Type
  | isInstalled _ => Bool
  | _ => Unit

/-- The call goes to the active environment. -/
def isEnvironment : Call → Bool
  | build .. | installInto .. => false
  | isInstalled _ | uninstall _ | install _ => true

end Call

/-- One request. A deadline is a reading of the clock in milliseconds. -/
inductive Request where
  | stat (follow : Bool) (path : Path)
  | list (path : Path)
  /-- A copy of the tree that a path leads to. -/
  | snapshot (path : Path)
  | openRead (path : Path)
  /-- How many bytes the next read of an open file may return, at most the size of the buffer. -/
  | read (file : OpenFile) (buffer : Nat)
  | mkdir (path : Path)
  | unlink (path : Path)
  | removeTree (path : Path)
  | rename (src dst : Path)
  | openWrite (truncate : Bool) (path : Path)
  | append (file : Handle) (bytes : ByteArray)
  | sync (file : Handle)
  /-- Takes the advisory lock of an open file without waiting. -/
  | lock (file : Handle)
  | unlock (file : Handle)
  | workingDirectory
  | variable (name : String)
  | clock
  /-- A name of 36 characters that is not in use. -/
  | freshName
  | run (command : Command) (deadline : Option Nat)
  | collaborate (call : Call) (deadline : Option Nat)
  | log (level : Level) (text : String)
  | print (stream : Stream) (text : String)

namespace Request

/-- The type of the answer. What has a deadline may have no answer in time. -/
@[reducible] def Reply : Request → Type
  | stat .. => Except SystemError Stat
  | list _ => Except SystemError (List Name)
  | snapshot _ => Except SystemError Node
  | openRead _ => Except SystemError OpenFile
  | read .. => Except SystemError Nat
  | openWrite .. => Except SystemError Handle
  | mkdir _ | unlink _ | removeTree _ | rename .. | append .. | sync _ | lock _ =>
    Except SystemError Unit
  | unlock _ => Unit
  | workingDirectory => Except SystemError Path
  | .variable _ => Option Bytes
  | clock => Nat
  | freshName => String
  | run _ none => Except SystemError Finished
  | run _ (some _) => Option (Except SystemError Finished)
  | collaborate call none => Except Error call.Result
  | collaborate call (some _) => Option (Except Error call.Result)
  | log .. => Unit
  | print .. => Except SystemError Unit

end Request

end LayerPack
