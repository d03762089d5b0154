import LayerPack.Host.Files
import LayerPack.Zip.Reader

/-! The size limits that platforms set for a layer, and the check of a finished archive against
them. The check reads the directory of the archive and changes nothing. -/
namespace LayerPack.Archive

open Program

def mib : Nat := 1024 * 1024

/-- The largest number of bytes that is counted. -/
def maxCount : Nat := Nat.pow 2 64 - 1

structure Limits where
  /-- Of the archive file. -/
  maxZipped : Nat := 50 * mib
  /-- Of all extracted files together. -/
  maxUnzipped : Nat := 250 * mib
  deriving DecidableEq

/-- A number of mebibytes in bytes, as far as it can be counted. -/
def ofMib (n : Nat) : Nat := min (n * mib) maxCount

structure LimitReport where
  zippedBytes : Nat
  unzippedBytes : Nat
  entries : Nat
  /-- One text for each limit that is exceeded. -/
  violations : List String
  deriving DecidableEq

def LimitReport.isWithin (r : LimitReport) : Bool := r.violations.isEmpty

/-- Adds up sizes; the sum stops at the largest number. -/
def totalSize (sizes : List Nat) : Nat := sizes.foldl (fun sum n => min (sum + n) maxCount) 0

def Limits.violations (limits : Limits) (zipped unzipped : Nat) : List String :=
  (if zipped > limits.maxZipped then
    ["archive is " ++ toString zipped ++ " bytes, limit is " ++ toString limits.maxZipped ++
      " bytes"] else []) ++
  (if unzipped > limits.maxUnzipped then
    ["extracted size is " ++ toString unzipped ++ " bytes, limit is " ++
      toString limits.maxUnzipped ++ " bytes"] else [])

def Limits.report (limits : Limits) (zipped : Nat) (items : List Zip.Item) : LimitReport :=
  let unzipped := totalSize (items.map (·.size))
  ⟨zipped, unzipped, items.length, limits.violations zipped unzipped⟩

def logViolations (archive : Path) : List String → Program Unit
  | [] => return ()
  | violation :: rest => do
    request (.log .warn (archive.display ++ ": " ++ violation))
    logViolations archive rest

/-- Measures an archive. -/
def check (archive : Path) (limits : Limits) : Program (Except Error LimitReport) := do
  match ← Files.openRead archive with
  | .error e => return .error (.files "opening archive" archive e)
  | .ok file =>
    match ← Files.readAll Files.textBuffer file with
    | .error _ => return .error .unreadableZip
    | .ok content =>
      match Zip.items? content with
      | none => return .error .unreadableZip
      | some items =>
        let report := limits.report content.size items
        logViolations archive report.violations
        return .ok report

end LayerPack.Archive
