import LayerPack.Project.Load
import LayerPack.Proofs.Archive.Reading
import LayerPack.Proofs.CommandLine.Preparing
import LayerPack.Proofs.Project.Declaration
import LayerPack.Proofs.Project.Pyproject

/-! What is found out about a source tree. Two files are looked at, one after the other, and what a look
at a file shows decides what is made of it: a file can be missing, broken or a text. The metadata are
described in terms of the two sights alone. -/
namespace LayerPack

open Program Machine

/-- Some request of the run failed since the host would not carry it out. -/
def Outside.Faults (o : Outside) (es : List (Request × Machine)) (e : SystemError) : Prop :=
  ∃ asked ∈ es, o.fault asked.2.ticks = some e

/-- The request is about this file: its status, opening it, or reading what was opened. -/
def Request.Consults (p : Path) : Request → Prop
  | .stat _ q => q = p
  | .openRead q => q = p
  | .read .. => True
  | _ => False

variable {o : Outside} {m : Machine} {es es' : List (Request × Machine)} {p : Path} {e : SystemError}

theorem Outside.Faults.mono (h : o.Faults es e) (sub : es ⊆ es') : o.Faults es' e :=
  let ⟨asked, hm, he⟩ := h
  ⟨asked, sub hm, he⟩

theorem Machine.reading_error {α : Type} {fault : Option SystemError} {answer : Except SystemError α}
    (h : (reading fault m answer).1 = .error e) : fault = some e ∨ answer = .error e := by
  cases fault with
  | none => exact .inr h
  | some e' =>
    cases h
    exact .inl rfl

namespace Files

/-- Reading a file to its end fails only if the host refuses it. -/
theorem readFrom_refused (buffer : Nat) (held unread : ByteArray) :
    (readFrom buffer held (.data unread)).Ends (answer o) m fun r es _ =>
      ∀ e, r = .error e → o.Faults es e := by
  generalize hf : OpenFile.data unread = file
  fun_induction readFrom buffer held file generalizing unread m with
  | case1 => cases hf
  | case2 held unread' ih =>
    cases hf
    refine Ends.bind (p := request (.read (.data unread') buffer)) (M := fun r es _ => ∀ e, r = .error e →
      o.Faults es e) (fun e h => ?_) ?_
    · rcases reading_error h with h | h
      · exact ⟨_, List.mem_singleton_self _, h⟩
      · cases h
    rintro (e | granted) es m' h
    · rintro _ ⟨⟩
      exact (h e rfl).mono (by simp)
    · dsimp only
      split
      · exact fun _ h => by cases h
      · exact (ih granted ‹_› _ rfl).mono fun r es' _ hr e he => (hr e he).mono (by simp)

theorem only_isFile (p : Path) : (isFile p).Only (Request.Consults p) := by
  refine Only.bind (p := stat p) (only_request.mpr rfl) fun r => ?_
  cases r <;> trivial

theorem only_readText_consults (p : Path) : (readText p).Only (Request.Consults p) := by
  refine Only.bind (p := openRead p) (only_request.mpr rfl) fun r => ?_
  cases r with
  | error e => trivial
  | ok file =>
    refine (only_readFrom_of textBuffer .empty file fun _ => trivial).bind fun r => ?_
    cases r with
    | error e => trivial
    | ok content =>
      dsimp only
      split <;> trivial

/-- A file that is there is opened, unless the host refuses it. -/
theorem openRead_ends {mode : Nat} {content : ByteArray} (file : m.disk.FileAt m.cwd p mode content) :
    (openRead p).Ends (answer o) m fun r es _ =>
      (∀ opened, r = .ok opened → opened = .data content) ∧ ∀ e, r = .error e → o.Faults es e := by
  have opened : m.disk.openRead m.cwd p = .ok (.data content) := by
    obtain ⟨place, id, hr⟩ := file
    rw [Disk.openRead, hr]
    rfl
  change (∀ found, (reading (o.fault m.ticks) _ (m.disk.openRead m.cwd p)).1 = .ok found → _) ∧
    ∀ e, (reading (o.fault m.ticks) _ (m.disk.openRead m.cwd p)).1 = .error e → _
  rw [opened]
  cases hf : o.fault m.ticks with
  | none => exact ⟨fun _ h => (Except.ok.inj h).symm, fun _ h => by cases h⟩
  | some e =>
    refine ⟨fun _ h => (by cases h), fun e' h => ?_⟩
    cases h
    exact ⟨_, List.mem_singleton_self _, hf⟩

/-- What is read of an open file is all of it, unless the host refuses it. -/
theorem readAll_whole (buffer : Nat) (content : ByteArray) :
    (readAll buffer (.data content)).Ends (answer o) m fun r es _ =>
      (∀ read, r = .ok read → read = content) ∧ ∀ e, r = .error e → o.Faults es e :=
  ⟨(readAll_returns buffer content).run (answer o) m, readFrom_refused buffer .empty content⟩

theorem readText_ends {mode : Nat} {content : ByteArray} (file : m.disk.FileAt m.cwd p mode content) :
    (readText p).Ends (answer o) m fun r es _ => match r with
      | .ok text => String.fromUTF8? content = some text
      | .error e => String.fromUTF8? content = none ∧ e = .notText ∨ o.Faults es e := by
  refine (openRead_ends file).bind ?_
  rintro (e | file) es m' ⟨opened, refused⟩
  · exact .inr ((refused e rfl).mono (by simp))
  · obtain rfl := opened file rfl
    refine (readAll_whole textBuffer content).bind ?_
    rintro (e | read) es' m'' ⟨whole, refused⟩
    · exact .inr ((refused e rfl).mono (by simp))
    · cases whole read rfl
      dsimp only
      split
      next text ht => exact ht
      next hn => exact .inl ⟨hn, rfl⟩

end Files

/-- What a look at a file shows. -/
inductive Sight where
  | missing
  | broken (e : SystemError)
  | text (content : String)

/-- A look at a path in a run can show this: no file is there or its status was refused, what is there
is no text or reading it was refused, or it is a text. -/
def Sight.Of (o : Outside) (m : Machine) (es : List (Request × Machine)) (p : Path) : Sight → Prop
  | missing => (∀ mode content, ¬ m.disk.FileAt m.cwd p mode content) ∨
    ∃ before e, (.stat true p, before) ∈ es ∧ o.fault before.ticks = some e
  | broken e => ∃ mode content, m.disk.FileAt m.cwd p mode content ∧
    (String.fromUTF8? content = none ∧ e = .notText ∨ o.Faults es e)
  | text content => ∃ mode bytes, m.disk.FileAt m.cwd p mode bytes ∧ String.fromUTF8? bytes = some content

theorem Sight.Of.mono {sight : Sight} (h : sight.Of o m es p) (sub : es ⊆ es') : sight.Of o m es' p := by
  cases sight with
  | missing => exact h.imp_right fun ⟨before, e, hm, he⟩ => ⟨before, e, sub hm, he⟩
  | broken e =>
    obtain ⟨mode, content, file, h⟩ := h
    exact ⟨mode, content, file, h.imp_right fun h => h.mono sub⟩
  | text content => exact h

theorem Sight.Of.same {sight : Sight} {m' : Machine} (h : sight.Of o m' es p) (same : Same m m') :
    sight.Of o m es p := by
  unfold Sight.Of at h ⊢
  rwa [same.disk, same.cwd] at h

/-- Every path shows something. -/
theorem Sight.exists_of (o : Outside) (m : Machine) (es : List (Request × Machine)) (p : Path) :
    ∃ sight : Sight, sight.Of o m es p := by
  by_cases there : ∃ mode content, m.disk.FileAt m.cwd p mode content
  · obtain ⟨mode, content, file⟩ := there
    cases hc : String.fromUTF8? content with
    | none => exact ⟨.broken .notText, mode, content, file, .inl ⟨hc, rfl⟩⟩
    | some text => exact ⟨.text text, mode, content, file, hc⟩
  · exact ⟨.missing, .inl fun mode content file => there ⟨mode, content, file⟩⟩

theorem Files.isFile_ends (p : Path) : (isFile p).Ends (answer o) m fun there es _ =>
    (there = true → ∃ mode content, m.disk.FileAt m.cwd p mode content) ∧
    (there = false → Sight.missing.Of o m es p) := by
  refine Ends.bind (p := stat p) (M := fun r es _ =>
    (∀ status, r = .ok status → m.disk.stat m.cwd true p = .ok status) ∧
    ∀ e, r = .error e → m.disk.stat m.cwd true p = .error e ∨
      ∃ before e, (.stat true p, before) ∈ es ∧ o.fault before.ticks = some e) ?_ ?_
  · refine ⟨fun status h => Machine.stat_ok h, fun e h => ?_⟩
    exact (reading_error h).symm.imp_right fun hf => ⟨m, e, List.mem_singleton_self _, hf⟩
  rintro (e | status) es m' ⟨ok, failed⟩
  · change (false = true → _) ∧ (false = false → _)
    refine ⟨nofun, fun _ => ?_⟩
    rcases failed e rfl with h | ⟨before, e, hm, hf⟩
    · exact .inl fun mode content file => by cases h.symm.trans (Disk.stat_of_fileAt file)
    · exact .inr ⟨before, e, by simp [hm], hf⟩
  · have found := ok status rfl
    change (decide (status.kind = .file) = true → _) ∧ (decide (status.kind = .file) = false → _)
    rw [decide_eq_true_iff, decide_eq_false_iff_not]
    refine ⟨fun h => ?_, fun h => .inl fun mode content file => ?_⟩
    · obtain ⟨place, node, hr, rfl⟩ := Disk.stat_ok found
      cases node with
      | file id mode content => exact ⟨mode, content, place, id, hr⟩
      | dir | link => cases h
    · cases found.symm.trans (Disk.stat_of_fileAt file)
      exact h rfl

namespace Metadata

/-- Looks at a file that need not be there. -/
def look (p : Path) : Program Sight := do
  if ← Files.isFile p then
    match ← Files.readText p with
    | .error e => return .broken e
    | .ok content => return .text content
  else return .missing

/-- What is made of the sight of a `pyproject.toml`. -/
def ofPyproject (p : Path) : Sight → Except RunError Metadata
  | .missing => .ok {}
  | .broken e => .error (readFailure "read_pyproject" p e)
  | .text content =>
    (parsePyproject content).mapError fun e => .invalidArguments (p.display ++ ": " ++ e.message)

/-- What the sight of a `setup.cfg` adds. -/
def ofSetupCfg (p : Path) (m : Metadata) : Sight → Except RunError Metadata
  | .missing => .ok m
  | .broken e => .error (readFailure "read_setup_cfg" p e)
  | .text content =>
    let declared := SetupCfg.parse content
    .ok (if declared.name.isSome then
      { m with
        name := declared.name
        version := m.version.or declared.version
        sourceFile := some p }
    else m)

theorem loadPyproject_eq (p : Path) :
    loadPyproject p = (look p).bind fun sight => .done (ofPyproject p sight) := by
  unfold loadPyproject look
  simp only [bind_eq, bind_assoc]
  refine congrArg ((Files.isFile p).bind ·) (funext fun there => ?_)
  cases there with
  | false => rfl
  | true =>
    simp only [if_true, bind_assoc]
    refine congrArg ((Files.readText p).bind ·) (funext fun r => ?_)
    cases r with
    | error e => rfl
    | ok content =>
      dsimp only
      change _ = done ((parsePyproject content).mapError _)
      cases parsePyproject content <;> rfl

theorem loadSetupCfg_eq (p : Path) (m : Metadata) :
    loadSetupCfg p m = (look p).bind fun sight => .done (ofSetupCfg p m sight) := by
  unfold loadSetupCfg look
  simp only [bind_eq, bind_assoc]
  refine congrArg ((Files.isFile p).bind ·) (funext fun there => ?_)
  cases there with
  | false => rfl
  | true =>
    simp only [if_true, bind_assoc]
    refine congrArg ((Files.readText p).bind ·) (funext fun r => ?_)
    cases r with
    | error e => rfl
    | ok content =>
      change (if (SetupCfg.parse content).name.isSome then _ else _) =
        done (ofSetupCfg p m (.text content))
      rw [ofSetupCfg]
      split <;> rfl

theorem look_ends (p : Path) : (look p).Ends (answer o) m fun sight es _ => sight.Of o m es p := by
  have same : (Files.isFile p).Ends (answer o) m fun _ _ m' => Same m m' :=
    same_run (Files.only_kindIs .file p) o m
  refine ((Files.isFile_ends p).and same).bind fun there es m' ⟨⟨file, missing⟩, same⟩ => ?_
  cases there with
  | false => exact (missing rfl).mono (by simp)
  | true =>
    obtain ⟨mode, content, file⟩ := file rfl
    rw [← same.disk, ← same.cwd] at file
    refine (Files.readText_ends file).bind ?_
    rw [same.disk, same.cwd] at file
    rintro (e | text) es' m'' h
    · exact ⟨mode, content, file, h.imp_right fun h => h.mono (by simp)⟩
    · exact ⟨mode, content, file, h⟩

theorem only_look (p : Path) : (look p).Only (Request.Consults p) := by
  refine (Files.only_isFile p).bind fun there => ?_
  cases there with
  | false => trivial
  | true => exact (Files.only_readText_consults p).bind fun r => by cases r <;> trivial

theorem same_look (p : Path) : (look p).Ends (answer o) m fun _ _ m' => Same m m' := by
  refine same_run ?_ o m
  refine (Files.only_kindIs .file p).bind fun there => ?_
  cases there with
  | false => trivial
  | true => exact (Files.only_readText p).bind fun r => by cases r <;> trivial

def pyprojectIn (source : Path) : Path := source.join (.ofString "pyproject.toml")

def setupCfgIn (source : Path) : Path := source.join (.ofString "setup.cfg")

/-- What is made of the two sights. -/
def outcome (source : Path) (py cfg : Sight) : Except RunError Metadata :=
  match ofPyproject (pyprojectIn source) py with
  | .error e => .error e
  | .ok m =>
    if m.name.isSome then .ok { m with sourceFile := some (pyprojectIn source) }
    else ofSetupCfg (setupCfgIn source) m cfg

/-- Metadata that are still without a name are noted. -/
def conclude (source : Path) : Except RunError Metadata → Program (Except RunError Metadata)
  | .error e => .done (.error e)
  | .ok m =>
    if m.name.isNone then
      .ask (.log .debug ("No static project name found in " ++ source.display)) fun _ => .done (.ok m)
    else .done (.ok m)

theorem conclude_ends {source : Path} {r : Except RunError Metadata} :
    (conclude source r).Ends (answer o) m fun r' _ _ => r' = r := by
  cases r with
  | error e => exact rfl
  | ok found =>
    by_cases h : found.name.isNone
    · rw [conclude, if_pos h]
      exact rfl
    · rw [conclude, if_neg h]
      exact rfl

/-- The files are looked at in turn, the second one only if the first one does not settle the matter. -/
theorem load_eq (source : Path) : load source = (look (pyprojectIn source)).bind fun py =>
    match ofPyproject (pyprojectIn source) py with
    | .error e => .done (.error e)
    | .ok m =>
      if m.name.isSome then .done (.ok { m with sourceFile := some (pyprojectIn source) })
      else (look (setupCfgIn source)).bind fun cfg =>
        conclude source (ofSetupCfg (setupCfgIn source) m cfg) := by
  unfold load
  change (loadPyproject (pyprojectIn source)).bind _ = _
  rw [loadPyproject_eq, Program.bind_assoc]
  refine congrArg ((look _).bind ·) (funext fun py => ?_)
  change (match ofPyproject (pyprojectIn source) py with
    | .error e => _
    | .ok m => _) = _
  cases ofPyproject (pyprojectIn source) py with
  | error e => rfl
  | ok found =>
    dsimp only
    split
    · rfl
    · change (loadSetupCfg (setupCfgIn source) found).bind _ = _
      rw [loadSetupCfg_eq, Program.bind_assoc]
      refine congrArg ((look _).bind ·) (funext fun cfg => ?_)
      change (match ofSetupCfg (setupCfgIn source) found cfg with
        | .error e => _
        | .ok m => _) = _
      cases ofSetupCfg (setupCfgIn source) found cfg <;> rfl

/-- A run is decided by two sights. It asks about the first file only unless this is accepted without
a name. -/
theorem load_ends (source : Path) : (load source).Ends (answer o) m fun r es _ =>
    ∃ py cfg : Sight, py.Of o m es (pyprojectIn source) ∧ cfg.Of o m es (setupCfgIn source) ∧
      r = outcome source py cfg ∧
      ((∀ found, ofPyproject (pyprojectIn source) py = .ok found → found.name.isSome) →
        ∀ asked ∈ es, asked.1.Consults (pyprojectIn source)) := by
  rw [load_eq]
  refine (((look_ends _).and (same_look _)).and (only_look _).ends).bind ?_
  rintro py es m' ⟨⟨seen, same⟩, only⟩
  obtain ⟨unseen, h⟩ := Sight.exists_of o m (es ++ []) (setupCfgIn source)
  have settled (r : Except RunError Metadata) (hr : r = outcome source py unseen) :
      ∃ py cfg : Sight, py.Of o m (es ++ []) (pyprojectIn source) ∧
        cfg.Of o m (es ++ []) (setupCfgIn source) ∧ r = outcome source py cfg ∧
        ((∀ found, ofPyproject (pyprojectIn source) py = .ok found → found.name.isSome) →
          ∀ asked ∈ es ++ [], asked.1.Consults (pyprojectIn source)) := by
    refine ⟨py, unseen, seen.mono (by simp), h, hr, fun _ => ?_⟩
    rwa [List.append_nil]
  cases hp : ofPyproject (pyprojectIn source) py with
  | error e => exact ends_done.mpr (settled _ (by rw [outcome, hp]))
  | ok found =>
    dsimp only
    by_cases named : found.name.isSome
    · rw [if_pos named]
      exact ends_done.mpr (settled _ (by simp only [outcome, hp, named, if_true]))
    · rw [if_neg named]
      refine (look_ends _).bind fun cfg es' m'' seen' => conclude_ends.mono fun r es'' _ hr => ?_
      refine ⟨py, cfg, seen.mono (by simp), (seen'.same same).mono (by simp), ?_, fun h => ?_⟩
      · simp only [outcome, hp, named, hr, Bool.false_eq_true, if_false]
      · exact absurd (h found hp) named

/-! What a sight says. -/

/-- The text is a document that gives a key of the project this text. -/
def Gives (py : Sight) (key text : String) : Prop :=
  ∃ content document, py = .text content ∧ Toml.parse? content = some document ∧ Declares document key text

/-- The text gives a field of the metadata section this value. -/
def Configures (cfg : Sight) (field : SetupCfg.Field) (text : String) : Prop :=
  ∃ content, cfg = .text content ∧ (SetupCfg.parse content).get field = some text

/-- A file that is missing sets no defaults for the layer. -/
def HasLayer (py : Sight) (layer : LayerConfig) : Prop :=
  (py = .missing ∧ layer = {}) ∨ ∃ content document, py = .text content ∧
    Toml.parse? content = some document ∧ LayerIs document (.ok layer)

/-- Why a `pyproject.toml` is not accepted. -/
inductive Rejects (p : Path) : Sight → RunError → Prop
  | unreadable (e : SystemError) : Rejects p (.broken e) (readFailure "read_pyproject" p e)
  | noDocument {content : String} (h : Toml.parse? content = none) :
    Rejects p (.text content) (.invalidArguments (p.display ++ ": " ++ ParseError.syntaxError.message))
  | badLayer {content : String} {document : Toml.Value} {why : LayerConfig.Problem}
    (h : Toml.parse? content = some document) (hl : LayerIs document (.error why)) :
    Rejects p (.text content) (.invalidArguments (p.display ++ ": " ++ (ParseError.layer why).message))

variable {py cfg : Sight} {error : RunError} {found : Metadata} {source : Path} {text : String}

theorem ofPyproject_error : ofPyproject p py = .error error ↔ Rejects p py error := by
  constructor
  · intro h
    cases py with
    | missing => cases h
    | broken e =>
      cases h
      exact .unreadable e
    | text content =>
      rw [ofPyproject] at h
      cases hp : parsePyproject content with
      | ok m =>
        rw [hp] at h
        cases h
      | error problem =>
        rw [hp] at h
        cases h
        rcases parsePyproject_error.mp hp with ⟨hn, rfl⟩ | ⟨document, why, hd, hl, rfl⟩
        · exact .noDocument hn
        · exact .badLayer hd hl
  · rintro (_ | hn | ⟨hd, hl⟩)
    · rfl
    · rw [ofPyproject, parsePyproject_error.mpr (.inl ⟨hn, rfl⟩)]
      rfl
    · rw [ofPyproject, parsePyproject_error.mpr (.inr ⟨_, _, hd, hl, rfl⟩)]
      rfl

/-- What is accepted has what the document declares. -/
structure Accepted (py : Sight) (found : Metadata) : Prop where
  name (text : String) : found.name = some text ↔ Gives py "name" text
  version (text : String) : found.version = some text ↔ Gives py "version" text
  sourceFile : found.sourceFile = none
  layer : HasLayer py found.layer

theorem accepted_of_ofPyproject (h : ofPyproject p py = .ok found) : Accepted py found := by
  cases py with
  | missing =>
    cases h
    refine ⟨fun text => ?_, fun text => ?_, rfl, .inl ⟨rfl, rfl⟩⟩ <;>
      exact iff_of_false nofun fun ⟨_, _, h, _⟩ => by cases h
  | broken e => cases h
  | text content =>
    rw [ofPyproject] at h
    cases hp : parsePyproject content with
    | error problem =>
      rw [hp] at h
      cases h
    | ok m =>
      rw [hp] at h
      cases h
      obtain ⟨document, layer, hd, hl, rfl⟩ := parsePyproject_ok.mp hp
      have given (key text : String) : field document key = some text ↔ Gives (.text content) key text := by
        rw [field_eq_some]
        constructor
        · exact fun h => ⟨content, document, rfl, hd, h⟩
        · rintro ⟨_, document', ⟨⟩, hd', h⟩
          cases hd.symm.trans hd'
          exact h
      exact ⟨given "name", given "version", rfl, .inr ⟨content, document, rfl, hd, hl⟩⟩

/-- Metadata in terms of the two sights. -/
structure Describes (source : Path) (py cfg : Sight) (found : Metadata) : Prop where
  name (text : String) : found.name = some text ↔
    Gives py "name" text ∨ ((∀ other, ¬ Gives py "name" other) ∧ Configures cfg .name text)
  version (text : String) : found.version = some text ↔ Gives py "version" text ∨
    ((∀ other, ¬ Gives py "name" other) ∧ (∀ other, ¬ Gives py "version" other) ∧
      (∃ other, Configures cfg .name other) ∧ Configures cfg .version text)
  sourceFile (p : Path) : found.sourceFile = some p ↔
    ((∃ text, Gives py "name" text) ∧ p = pyprojectIn source) ∨
      ((∀ text, ¬ Gives py "name" text) ∧ (∃ text, Configures cfg .name text) ∧ p = setupCfgIn source)
  sourced : found.sourceFile.isSome = found.name.isSome
  layer : HasLayer py found.layer
  neat (text : String) : found.name = some text ∨ found.version = some text →
    text ≠ "" ∧ Text.Trimmed text.toList

theorem neat_of_gives {key : String} (h : Gives py key text) : text ≠ "" ∧ Text.Trimmed text.toList := by
  obtain ⟨content, document, -, -, raw, -, rfl, hne⟩ := h
  refine ⟨hne, ?_⟩
  rw [Text.trim, String.toList_ofList]
  exact Text.trimmed_trimChars _

theorem neat_of_configures {field : SetupCfg.Field} (h : Configures cfg field text) :
    text ≠ "" ∧ Text.Trimmed text.toList := by
  obtain ⟨content, -, hf⟩ := h
  obtain ⟨above, line, below, -, -, declares, -⟩ := ((SetupCfg.foldl_step field _).2 text).mp hf
  refine ⟨?_, ?_⟩
  · rintro rfl
    exact declares.static.1 rfl
  · obtain ⟨before, after, -, -, h⟩ := declares.splits
    rw [← h]
    exact Text.trimmed_trimChars _

theorem configures_text {content : String} {field : SetupCfg.Field} :
    Configures (.text content) field text ↔ (SetupCfg.parse content).get field = some text := by
  constructor
  · rintro ⟨_, ⟨⟩, h⟩
    exact h
  · exact fun h => ⟨content, rfl, h⟩

/-- A `setup.cfg` with a name completes the metadata, and any other one leaves them as they are. -/
theorem ofSetupCfg_ok {m : Metadata} (h : ofSetupCfg p m cfg = .ok found) :
    (∃ content name, cfg = .text content ∧ (SetupCfg.parse content).name = some name ∧ found =
      { m with
        name := some name
        version := m.version.or (SetupCfg.parse content).version
        sourceFile := some p }) ∨
      ((∀ name, ¬ Configures cfg .name name) ∧ found = m) := by
  cases cfg with
  | missing =>
    cases h
    exact .inr ⟨fun name ⟨_, h, _⟩ => (by cases h), rfl⟩
  | broken e => cases h
  | text content =>
    rw [ofSetupCfg] at h
    cases hn : (SetupCfg.parse content).name with
    | none =>
      simp only [hn] at h
      cases h
      refine .inr ⟨fun name h => ?_, rfl⟩
      cases hn.symm.trans (configures_text.mp h)
    | some name =>
      simp only [hn] at h
      cases h
      exact .inl ⟨content, name, rfl, hn, rfl⟩

theorem ofSetupCfg_error {m : Metadata} :
    ofSetupCfg p m cfg = .error error ↔ ∃ e, cfg = .broken e ∧ error = readFailure "read_setup_cfg" p e := by
  cases cfg with
  | missing | text => exact iff_of_false nofun fun ⟨_, h, _⟩ => by cases h
  | broken e => simp [ofSetupCfg, eq_comm]

theorem Accepted.silent {key : String} {o : Option String} (h : ∀ text, o = some text ↔ Gives py key text) :
    o = none ↔ ∀ text, ¬ Gives py key text := by
  simp only [← h, Option.eq_none_iff_forall_ne_some, ne_eq]

theorem Accepted.neat {m : Metadata} (accepted : Accepted py m)
    (h : m.name = some text ∨ m.version = some text) : text ≠ "" ∧ Text.Trimmed text.toList :=
  h.elim (fun h => neat_of_gives ((accepted.name text).mp h))
    fun h => neat_of_gives ((accepted.version text).mp h)

theorem Accepted.describes_named {m : Metadata} {n : String} (accepted : Accepted py m)
    (named : m.name = some n) :
    Describes source py cfg { m with sourceFile := some (pyprojectIn source) } where
  name text := (accepted.name text).trans
    (or_iff_left fun h => h.1 n ((accepted.name n).mp named)).symm
  version text := (accepted.version text).trans
    (or_iff_left fun h => h.1 n ((accepted.name n).mp named)).symm
  sourceFile p := by
    have given := (accepted.name n).mp named
    rw [or_iff_left fun h => h.1 n given, and_iff_right ⟨n, given⟩, Option.some_inj, eq_comm]
  sourced := by rw [named]; rfl
  layer := accepted.layer
  neat _ := accepted.neat

theorem Accepted.describes_completed {m : Metadata} {content n : String} (accepted : Accepted py m)
    (named : m.name = none) (hn : (SetupCfg.parse content).name = some n) :
    Describes source py (.text content)
      { m with
        name := some n
        version := m.version.or (SetupCfg.parse content).version
        sourceFile := some (setupCfgIn source) } := by
  have silent := (Accepted.silent accepted.name).mp named
  have given : ∃ other, Configures (.text content) .name other := ⟨n, configures_text.mpr hn⟩
  have name (text : String) : some n = some text ↔ Configures (.text content) .name text := by
    rw [configures_text, ← hn]
    rfl
  have version (text : String) : m.version.or (SetupCfg.parse content).version = some text ↔
      Gives py "version" text ∨
        ((∀ other, ¬ Gives py "version" other) ∧ Configures (.text content) .version text) := by
    rw [Option.or_eq_some_iff, accepted.version, Accepted.silent accepted.version, configures_text]
    rfl
  refine ⟨fun text => ?_, fun text => ?_, fun p => ?_, rfl, accepted.layer, fun text h => ?_⟩
  · rw [or_iff_right (silent text), and_iff_right silent, name]
  · rw [version, and_iff_right silent, and_iff_right given]
  · rw [or_iff_right fun h => h.1.elim silent, and_iff_right silent, and_iff_right given,
      Option.some_inj, eq_comm]
  · rcases h with h | h
    · exact neat_of_configures ((name text).mp h)
    · exact ((version text).mp h).elim neat_of_gives fun h => neat_of_configures h.2

theorem Accepted.describes_nameless {m : Metadata} (accepted : Accepted py m) (named : m.name = none)
    (unnamed : ∀ name, ¬ Configures cfg .name name) : Describes source py cfg m where
  name text := (accepted.name text).trans (or_iff_left fun h => unnamed text h.2).symm
  version text := (accepted.version text).trans (or_iff_left fun h => h.2.2.1.elim unnamed).symm
  sourceFile p := by
    have silent := (Accepted.silent accepted.name).mp named
    rw [accepted.sourceFile]
    exact iff_of_false nofun fun h => h.elim (fun h => h.1.elim silent) fun h => h.2.1.elim unnamed
  sourced := by rw [named, accepted.sourceFile]; rfl
  layer := accepted.layer
  neat _ := accepted.neat

theorem describes_of_outcome (h : outcome source py cfg = .ok found) : Describes source py cfg found := by
  unfold outcome at h
  cases hp : ofPyproject (pyprojectIn source) py with
  | error e =>
    rw [hp] at h
    cases h
  | ok m =>
    have accepted := accepted_of_ofPyproject hp
    rw [hp] at h
    dsimp only at h
    cases named : m.name with
    | some n =>
      rw [if_pos (by rw [named]; rfl)] at h
      cases h
      exact accepted.describes_named named
    | none =>
      rw [if_neg (by rw [named]; nofun)] at h
      rcases ofSetupCfg_ok h with ⟨content, name, rfl, hn, rfl⟩ | ⟨unnamed, rfl⟩
      · exact accepted.describes_completed named hn
      · exact accepted.describes_nameless named unnamed

/-- All failures: the first file is rejected, or it is accepted without a name and the second one cannot
be read. -/
theorem outcome_error : outcome source py cfg = .error error ↔ Rejects (pyprojectIn source) py error ∨
    ((∀ other, ¬ Rejects (pyprojectIn source) py other) ∧ (∀ text, ¬ Gives py "name" text) ∧
      ∃ e, cfg = .broken e ∧ error = readFailure "read_setup_cfg" (setupCfgIn source) e) := by
  simp only [← ofPyproject_error]
  unfold outcome
  cases hp : ofPyproject (pyprojectIn source) py with
  | error e => exact (or_iff_left fun h => h.1 e rfl).symm
  | ok m =>
    have accepted := accepted_of_ofPyproject hp
    dsimp only
    cases named : m.name with
    | some n =>
      have given := (accepted.name n).mp named
      exact iff_of_false nofun fun h => h.elim nofun fun h => h.2.1 n given
    | none =>
      rw [or_iff_right nofun, and_iff_right fun _ => nofun,
        and_iff_right ((Accepted.silent accepted.name).mp named), ← ofSetupCfg_error (m := m)]
      rfl

/-- What `load` finds out about a source tree, in terms of what a look at the two files shows. If the first
one is rejected or names the project, nothing is asked about the second one. -/
theorem load_describes (o : Outside) (m : Machine) (source : Path) :
    (load source).Ends (answer o) m fun r es _ => ∃ py cfg : Sight,
      py.Of o m es (pyprojectIn source) ∧ cfg.Of o m es (setupCfgIn source) ∧
      (∀ found, r = .ok found → Describes source py cfg found) ∧
      (∀ error, r = .error error ↔ Rejects (pyprojectIn source) py error ∨
        ((∀ other, ¬ Rejects (pyprojectIn source) py other) ∧ (∀ text, ¬ Gives py "name" text) ∧
          ∃ e, cfg = .broken e ∧ error = readFailure "read_setup_cfg" (setupCfgIn source) e)) ∧
      ((∃ error, Rejects (pyprojectIn source) py error) ∨ (∃ text, Gives py "name" text) →
        ∀ asked ∈ es, asked.1.Consults (pyprojectIn source)) := by
  refine (load_ends source).mono ?_
  rintro r es m' ⟨py, cfg, seen, seen', rfl, settled⟩
  refine ⟨py, cfg, seen, seen', fun found h => describes_of_outcome h, fun error => outcome_error,
    fun decided => settled fun m hp => ?_⟩
  rcases decided with ⟨error, rejected⟩ | ⟨text, given⟩
  · cases hp.symm.trans (ofPyproject_error.mpr rejected)
  · rw [((accepted_of_ofPyproject hp).name text).mpr given]
    rfl

end Metadata

end LayerPack
