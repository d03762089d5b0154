import LayerPack.Archive.Limits
import LayerPack.CommandLine.Terminal
import LayerPack.Pipeline.Run
import LayerPack.Text.Json
import LayerPack.Text.Timestamp

/-! The report of a successful run, as a JSON document for programs and as lines for the reader. -/
namespace LayerPack

namespace Report

/-- A path as JSON; one that is not text has no such form. -/
def pathJson (p : Path) : Except String Json :=
  match Bytes.toText? p.bytes with
  | some text => .ok (.string text)
  | none => .error "path contains invalid UTF-8 characters"

def textJson : Option String → Json
  | some text => .string text
  | none => .null

def stageJson (record : StageRecord) : Json :=
  .object [("stage", .string record.stage.name), ("duration_ms", .number record.duration)]

def replacedJson : Option Bool → Json
  | some replaced => .object [("replaced_existing", .boolean replaced)]
  | none => .null

def limitsJson (r : Archive.LimitReport) : Json := .object [
  ("zipped_bytes", .number r.zippedBytes),
  ("unzipped_bytes", .number r.unzippedBytes),
  ("entries", .number r.entries),
  ("violations", .array (r.violations.map .string))]

/-- The whole report; the check of the limits comes last, if there was one. -/
def toJson (r : Report) (limits : Option Archive.LimitReport) : Except String Json := do
  let wheelPath ← pathJson r.wheel.path
  let archivePath ← pathJson r.archive.path
  let workspace ← pathJson r.workspace
  return .object ([
    ("project", .string r.project),
    ("version", textJson r.version),
    ("started_at", .string (Timestamp.render r.startedAt)),
    ("unit", .object [("path", wheelPath), ("file_name", .string r.wheel.fileName)]),
    ("archive", .object [("path", archivePath), ("files", .number r.archive.files),
      ("bytes", .number r.archive.bytes), ("sha256", .string r.archive.sha256)]),
    ("tree_digest", .string r.treeDigest),
    ("reconcile", replacedJson r.replaced),
    ("stages", .array (r.stages.map stageJson)),
    ("workspace", workspace),
    ("workspace_kept", .boolean r.workspaceKept)] ++
    match limits with
    | some report => [("limits", limitsJson report)]
    | none => [])

/-- One line of the report for the reader. -/
inductive Line where
  | success (text : String)
  | indented (text : String)
  | detail (text : String)
  | warning (text : String)
  deriving DecidableEq

def Line.print (t : Terminal) : Line → Program (Except SystemError Unit)
  | success text => t.success text
  | indented text => t.indented text
  | detail text => t.detail text
  | warning text => t.warning text

def replacedLine : Option Bool → Line
  | some true => .success "Replaced the installed copy in the active environment"
  | some false => .success "Installed into the active environment"
  | none => .indented "Active environment left unchanged"

def limitLines (r : Archive.LimitReport) : List Line :=
  if r.isWithin then
    [.success ("Within platform limits (" ++ toString r.unzippedBytes ++ " bytes unzipped in " ++
      toString r.entries ++ " entries)")]
  else r.violations.map .warning

def lines (r : Report) (limits : Option Archive.LimitReport) : List Line :=
  [.success ("Layer archive written: " ++ r.archive.path.display),
    .indented ("Distribution: " ++ r.wheel.fileName)] ++
  (match r.version with
    | some version => [.indented ("Version: " ++ version)]
    | none => []) ++
  [.indented ("Files: " ++ toString r.archive.files ++ " (" ++ toString r.archive.bytes ++
      " bytes zipped)"),
    .indented ("SHA-256: " ++ r.archive.sha256),
    .detail ("Tree digest: " ++ r.treeDigest)] ++
  r.stages.map (fun record =>
    .detail (record.stage.name ++ ": " ++ toString record.duration ++ " ms")) ++
  [replacedLine r.replaced] ++
  (if r.workspaceKept then [.indented ("Workspace kept at " ++ r.workspace.display)] else []) ++
  match limits with
  | some report => limitLines report
  | none => []

/-- Prints lines until one cannot be printed. -/
def printLines (t : Terminal) : List Line → Program (Except SystemError Unit)
  | [] => return .ok ()
  | line :: rest => do
    match ← line.print t with
    | .error e => return .error e
    | .ok () => printLines t rest

end Report

end LayerPack
