import LayerPack.Pipeline.Run
import LayerPack.Proofs.Host.Requests

/-! What the parts of a run can ask of the host, apart from the calls of collaborators: selecting
a wheel and hashing a tree are quiet, the first stage removes the workspace and the old archive and
makes directories, and archiving works on the hidden file of the output. -/
namespace LayerPack

open Program Request

/-- The tree of the archive. -/
def Settings.tree (s : Settings) : Path := (⟨s.workspace⟩ : Workspace).target

/-- The directories that the first stage makes. -/
def Settings.furnished (s : Settings) : List Path :=
  [(⟨s.workspace⟩ : Workspace).dist, s.tree] ++ if s.distInWorkspace then [] else [s.dist]

namespace Request

/-- A request of archiving files: quiet, or a step of the life of the hidden file. -/
def Archives (output : Path) (fresh : String) (q : Request) : Prop :=
  q.Quiet ∨ (∃ handle bytes, q = .append handle bytes) ∨
    q = .openWrite true (Archive.partialPath output fresh) ∨
    q = .unlink (Archive.partialPath output fresh) ∨
    q = .rename (Archive.partialPath output fresh) output

/-- A request of the first stage. -/
def Cleans (s : Settings) (q : Request) : Prop :=
  q.Removes s.workspace ∨ q.Makes (Workspace.mk s.workspace).dist ∨
    q.Makes (Workspace.mk s.workspace).target ∨ (s.distInWorkspace = false ∧ q.Makes s.dist) ∨
    q = .unlink s.output

theorem Archives.mark? {q : Request} {output : Path} {fresh : String}
    (h : q.Archives output fresh) : q.mark? = none := by
  rcases h with h | ⟨handle, bytes, rfl⟩ | rfl | rfl | rfl
  · exact h.mark?
  all_goals rfl

theorem Cleans.mark? {q : Request} {s : Settings} (h : q.Cleans s) : q.mark? = none := by
  rcases h with h | h | h | ⟨-, h⟩ | rfl
  · exact h.mark?
  · exact h.mark?
  · exact h.mark?
  · exact h.mark?
  · rfl

end Request

namespace Wheel

theorem only_isThere (p : Path) : (isThere p).Only Quiet := by
  refine (Files.only_stat p).bind fun r => ?_
  cases r with
  | ok s => trivial
  | error e => exact (Files.only_lstat p).bind fun r => by cases r <;> trivial

theorem only_descend (here : Path) (parts : List String) : (descend here parts).Only Quiet := by
  induction parts generalizing here with
  | nil => trivial
  | cons part rest ih =>
    refine Only.bind ?_ fun found => ?_
    · split
      · exact Files.only_kindIs .dir here
      · exact only_isThere _
    · split
      · exact ih _
      · trivial

theorem only_scanned (dir : Path) : (scanned dir).Only Quiet := by
  unfold scanned
  split <;> exact only_descend _ _

theorem only_candidates (dir : Path) : (candidates dir).Only Quiet := by
  refine (only_scanned dir).bind fun here => ?_
  cases here with
  | none => trivial
  | some here =>
    refine (Files.only_kindIs .dir here).bind fun there => ?_
    cases there with
    | false => trivial
    | true => exact (only_request.mpr trivial).bind fun r => by cases r <;> trivial

theorem only_matching (project : String) (found : List Path) :
    (matching project found).Only Quiet := by
  induction found with
  | nil => trivial
  | cons p rest ih =>
    refine (Files.only_kindIs .file p).bind fun there => ?_
    cases there with
    | false => exact ih
    | true =>
      simp only [if_true]
      split
      · exact (only_request.mpr (quiet_debug (by simp))).bind fun _ => ih.bind fun _ => trivial
      · exact (only_request.mpr (quiet_debug (by simp))).bind fun _ => ih

theorem only_select (dir : Path) (project : String) : (select dir project).Only Quiet := by
  unfold select
  refine (Work.Only.now (only_candidates dir)).bind fun found => ?_
  refine (Work.only_ofExcept found).bind fun found => ?_
  refine (Work.Only.now (only_matching project found)).bind fun found => ?_
  split
  · exact Work.only_pure _
  · exact (Work.Only.await trivial (Files.only_listNames dir)).bind fun contents =>
      (Work.only_ofExcept contents).bind fun _ => Work.only_fail _
  · exact Work.only_fail _

end Wheel

namespace Archive

theorem only_readForHash (p : Path) : (readForHash p).Only Quiet := by
  refine (Files.only_openRead p).bind fun r => ?_
  cases r with
  | error e => trivial
  | ok file => exact (Files.only_readAll hashBuffer file).bind fun r => by cases r <;> trivial

theorem only_recordsOf (root : Path) (files : List Path) : (recordsOf root files).Only Quiet := by
  induction files with
  | nil => exact Work.only_pure _
  | cons p rest ih =>
    refine (Work.only_ofExcept _).bind fun name => ?_
    refine (Work.Only.await trivial (only_readForHash p)).bind fun content => ?_
    exact (Work.only_ofExcept _).bind fun content => ih.bind fun _ => Work.only_pure _

theorem only_treeDigest (root : Path) : (treeDigest root).Only Quiet :=
  (Work.Only.await trivial (Files.only_collect root)).bind fun files =>
    (Work.only_ofExcept files).bind fun files =>
    (only_recordsOf root files).bind fun _ => Work.only_pure _

theorem only_readEntry (root p : Path) : (readEntry root p).Only Quiet := by
  unfold readEntry
  split
  · trivial
  refine (Files.only_stat p).bind fun r => ?_
  cases r with
  | error e => trivial
  | ok status =>
    refine (Files.only_openRead p).bind fun r => ?_
    cases r with
    | error e => trivial
    | ok file => exact (Files.only_readAll copyBuffer file).bind fun r => by cases r <;> trivial

theorem only_readEntries (root : Path) (files : List Path) :
    (readEntries root files).Only Quiet := by
  induction files with
  | nil => trivial
  | cons p rest ih =>
    refine (only_readEntry root p).bind fun r => ?_
    cases r with
    | error reason => trivial
    | ok entry => exact ih.bind fun r => by cases r <;> trivial

variable (root output : Path) (fresh : String)

theorem only_removePartial :
    (removePartial (partialPath output fresh)).Only (Archives output fresh) := by
  refine (only_request.mpr (.inr (.inr (.inr (.inl rfl))))).bind fun r => ?_
  cases r with
  | ok => exact only_request.mpr (.inl (quiet_debug (by simp)))
  | error e =>
    dsimp only
    split
    · trivial
    · exact only_request.mpr (.inl rfl)

theorem only_writeZip (files : List Path) :
    (writeZip root files (partialPath output fresh)).Only (Archives output fresh) := by
  refine (only_request.mpr (.inr (.inr (.inl rfl)))).bind fun r => ?_
  cases r with
  | error e => trivial
  | ok handle =>
    refine ((only_readEntries root files).mono fun q h => .inl h).bind fun r => ?_
    cases r with
    | error reason => trivial
    | ok entries =>
      refine (only_request.mpr (.inr (.inl ⟨_, _, rfl⟩))).bind fun r => ?_
      cases r with
      | error e => trivial
      | ok => exact (only_request.mpr (.inl trivial)).bind fun r => by cases r <;> trivial

theorem only_measure (p : Path) : (measure p).Only Quiet := by
  refine (Files.only_stat p).bind fun r => ?_
  cases r with
  | error e => trivial
  | ok status =>
    exact Only.bind ((only_readForHash p).bind fun _ => trivial) fun r => by cases r <;> trivial

theorem only_writePartial (files : List Path) :
    (writePartial root files (partialPath output fresh)).Only (Archives output fresh) := by
  have measured : (writeAndMeasure root files (partialPath output fresh)).Only (Archives output fresh) :=
    (only_writeZip root output fresh files).bind fun r => by
      cases r with
      | error reason => trivial
      | ok => exact (only_measure _).mono fun q h => .inl h
  refine measured.bind fun r => ?_
  cases r with
  | error reason => exact (only_removePartial output fresh).bind fun _ => trivial
  | ok => trivial

theorem only_makeParent {K : Request → Prop} (hQ : ∀ q, Quiet q → K q)
    (hM : ∀ p, Path.Over p output → K (.mkdir p)) : (makeParent output).Only K := by
  unfold makeParent
  split
  · exact Work.only_pure _
  next up hup =>
    exact (Work.Only.await (hQ _ trivial) ((Files.only_makeDirs up).mono fun q h =>
      h.elim (hQ q) fun ⟨p, above, h⟩ => h ▸ hM p ⟨up, hup, above⟩)).bind fun made =>
        Work.only_ofExcept _

/-- Before the hidden file is made, only directories above the output are made. -/
theorem only_prepare {K : Request → Prop} (hQ : ∀ q, Quiet q → K q)
    (hM : ∀ p, Path.Over p output → K (.mkdir p)) : (prepare root output).Only K := by
  refine (Work.Only.now (only_request.mpr (hQ _ (quiet_info (by simp))))).bind fun _ => ?_
  refine (Work.Only.await (hQ _ trivial) ((Files.only_collect root).mono hQ)).bind
    fun collected => ?_
  refine (Work.only_ofExcept _).bind fun files => (Work.only_failIf _ _).bind fun _ => ?_
  exact (only_makeParent output hQ hM).bind fun _ => Work.only_pure _

theorem only_writeAndMove (files : List Path) :
    (writeAndMove root files (partialPath output fresh) output).Only (Archives output fresh) := by
  refine (Work.Only.await (.inl trivial) (only_writePartial root output fresh files)).bind
    fun written => ?_
  refine (Work.only_ofExcept _).bind fun measured => ?_
  refine (Work.Only.now (only_request.mpr (.inr (.inr (.inr (.inr rfl)))))).bind fun moved => ?_
  exact (Work.only_ofExcept _).bind fun _ => Work.only_pure _

theorem only_moveOrRemove (files : List Path) : ((writeAndMove root files (partialPath output fresh)
    output).onStop (removePartial (partialPath output fresh))).Only (Archives output fresh) :=
  (only_writeAndMove root output fresh files).onStop (only_removePartial output fresh)

theorem only_deliver (files : List Path) :
    (deliver root output files).Only fun q => ∃ fresh, q.Archives output fresh :=
  (Work.Only.now (only_request.mpr ⟨"", .inl trivial⟩)).bind fun fresh =>
    (only_moveOrRemove root output fresh files).mono fun _ h => ⟨fresh, h⟩

theorem only_write {K : Request → Prop} (hA : ∀ q fresh, Archives output fresh q → K q)
    (hM : ∀ p, Path.Above p output → K (.mkdir p)) : (write root output).Only K := by
  have hQ (q : Request) (h : q.Quiet) : K q := hA q "" (.inl h)
  refine (only_prepare root output hQ fun p higher => hM p higher.above).bind fun files => ?_
  refine Work.Only.bind ((only_deliver root output files).mono fun q ⟨fresh, h⟩ => hA q fresh h)
    fun measured => ?_
  exact (Work.Only.now (only_request.mpr (hQ _ (quiet_info (by simp))))).bind fun _ =>
    Work.only_pure _

end Archive

theorem Workspace.only_cleanup (w : Workspace) : w.cleanup.Only (Removes w.root) :=
  (Files.only_removePath w.root).bind fun _ => trivial

namespace Pipeline

theorem only_prepare (s : Settings) : (Workspace.prepare s.workspace).Only (Cleans s) := by
  have info : ∀ removed, (Workspace.logRemoved s.workspace removed).Only (Cleans s) := by
    intro removed
    cases removed with
    | false => trivial
    | true => exact only_request.mpr (.inl (.inl (quiet_info (by simp))))
  refine (Work.Only.await (.inl (.inl trivial))
    ((Files.only_removePath _).mono fun q h => .inl h)).bind fun removed => ?_
  refine (Work.only_ofExcept _).bind fun removed => (Work.Only.now (info removed)).bind fun _ => ?_
  refine (Work.Only.await (.inl (.inl trivial))
    ((Files.only_makeDirs _).mono fun q h => .inr (.inl h))).bind fun made => ?_
  refine (Work.only_ofExcept _).bind fun _ => ?_
  refine (Work.Only.await (.inl (.inl trivial))
    ((Files.only_makeDirs _).mono fun q h => .inr (.inr (.inl h)))).bind fun made => ?_
  refine (Work.only_ofExcept _).bind fun _ => ?_
  exact (Work.Only.now (only_request.mpr (.inl (.inl (quiet_debug (by simp)))))).bind fun _ =>
    Work.only_pure _

theorem only_makeDist (s : Settings) {K : Request → Prop}
    (hM : s.distInWorkspace = false → ∀ q, q.Makes s.dist → K q) : (makeDist s).Only K := by
  unfold makeDist
  split
  · exact Work.only_pure _
  next h =>
    have makes := hM (by simpa using h)
    exact (Work.Only.await (makes _ (.inl trivial)) ((Files.only_makeDirs _).mono makes)).bind
      fun made => Work.only_ofExcept _

theorem only_removeStaleArchive (output : Path) :
    (removeStaleArchive output).Only fun q => q.Quiet ∨ q = .unlink output := by
  refine (Work.Only.await (.inl trivial) ((Files.only_lstat output).mono fun _ => .inl)).bind fun r => ?_
  cases r with
  | error e =>
    dsimp only
    split
    · exact Work.only_pure _
    · exact Work.only_fail _
  | ok status =>
    refine (Work.only_failIf _ _).bind fun _ => ?_
    refine (Work.Only.await (.inl trivial) (only_request.mpr (.inr rfl))).bind fun removed => ?_
    refine (Work.only_ofExcept _).bind fun _ => ?_
    exact Work.Only.now (only_request.mpr (.inl (quiet_info (by simp))))

theorem makeDist_cleans (s : Settings) : (makeDist s).Only (Cleans s) :=
  only_makeDist s fun h _ hq => .inr (.inr (.inr (.inl ⟨h, hq⟩)))

theorem removeStaleArchive_cleans (s : Settings) : (removeStaleArchive s.output).Only (Cleans s) :=
  (only_removeStaleArchive s.output).mono fun _ h =>
    h.imp .inl fun unlinks => .inr (.inr (.inr unlinks))

theorem only_clean (s : Settings) : (clean s).Only (Cleans s) :=
  (only_prepare s).bind fun _ => (makeDist_cleans s).bind fun _ =>
    (removeStaleArchive_cleans s).bind fun _ => Work.only_pure _

section Calls

variable {K : Request → Prop} {t : Toolchain}

theorem only_perform {call : Call} (hC : ∀ deadline, K (.collaborate call deadline)) :
    (Toolchain.outside.perform call).Only K := by
  intro deadline
  cases deadline with
  | none => exact ⟨hC none, fun r => by cases r <;> trivial⟩
  | some limit => exact ⟨hC (some limit), fun r => by rcases r with _ | _ | _ <;> trivial⟩

theorem only_info (hQ : ∀ q, Quiet q → K q) {text : String} (h : text.toList.head? ≠ some '▶') :
    (Work.now (request (.log .info text))).Only K :=
  Work.Only.now (only_request.mpr (hQ _ (quiet_info h)))

theorem only_buildWheel (s : Settings) (hQ : ∀ q, Quiet q → K q)
    (hC : (t.perform (.build s.source s.dist)).Only K) :
    (buildWheel t s.source s.dist s.project).Only K := by
  have selected : (Wheel.select s.dist s.project).Only K :=
    (Wheel.only_select s.dist s.project).mono hQ
  unfold buildWheel
  exact (only_info hQ (by simp)).bind fun _ => hC.bind fun _ =>
    selected.bind fun wheel => (only_info hQ (by simp)).bind fun _ => Work.only_pure _

theorem only_install (s : Settings) (workspace : Workspace) (wheel : Wheel)
    (hQ : ∀ q, Quiet q → K q)
    (hM : ∀ p, Path.Above p (workspace.installDir s.layerPrefix) → K (.mkdir p))
    (hC : (t.perform (.installInto wheel.path (workspace.installDir s.layerPrefix))).Only K) :
    (install t s workspace wheel).Only K := by
  have made : (Work.await (Files.makeDirs (workspace.installDir s.layerPrefix))).Only K :=
    Work.Only.await (hQ _ trivial) ((Files.only_makeDirs _).mono fun q h =>
      h.elim (hQ q) fun ⟨up, above, h⟩ => h ▸ hM up above)
  have asked (f : Error → Error) : ((t.perform (.installInto wheel.path
      (workspace.installDir s.layerPrefix))).mapError f).Only K := hC.mapError f
  have materialized : (materialize t wheel (workspace.installDir s.layerPrefix)).Only K :=
    (only_info hQ (by simp)).bind fun _ => made.bind fun _ =>
      (Work.only_ofExcept _).bind fun _ => (asked _).bind fun _ => only_info hQ (by simp)
  exact materialized.bind fun _ => (Archive.only_treeDigest _).mono hQ

theorem only_refresh (s : Settings) (wheel : Wheel) (hQ : ∀ q, Quiet q → K q)
    (hC : ∀ call, call.isEnvironment → (t.perform call).Only K) :
    (refreshEnvironment t s.project wheel).Only K := by
  have asked {call : Call} (h : call.isEnvironment) (f : Error → Error) :
      ((t.perform call).mapError f).Only K := (hC call h).mapError f
  have removed (installed : Bool) : (removeInstalled t s.project installed).Only K := by
    cases installed with
    | false => exact Work.Only.now (only_request.mpr (hQ _ (quiet_debug (by simp))))
    | true => exact (only_info hQ (by simp)).bind fun _ => asked rfl _
  have installed : (installWheel t s.project wheel).Only K :=
    (only_info hQ (by simp)).bind fun _ => (asked rfl _).bind fun _ => only_info hQ (by simp)
  exact (asked rfl _).bind fun was => (removed was).bind fun _ => installed.bind fun _ =>
    Work.only_pure _

/-- A stage asks what its work asks, and it writes to the log. -/
theorem only_stage {α : Type} {limit : Option Nat} {stage : Stage} {work : Work α} {p : Progress}
    (hL : ∀ level text, K (.log level text)) (hc : K .clock) (hw : work.Only K) :
    (Pipeline.stage limit stage work p).Only K := by
  refine (only_request.mpr (hL _ _)).bind fun _ => (only_request.mpr hc).bind fun started => ?_
  refine (hw _).bind fun r => ?_
  cases r with
  | error stop => trivial
  | ok a =>
    exact (only_request.mpr hc).bind fun _ => (only_request.mpr (hL _ _)).bind fun _ => trivial

theorem only_steps_bind {α β : Type} {x : Steps α} {f : α → Steps β} {p : Progress}
    (hx : (x p).Only K) (hf : ∀ a p', (f a p').Only K) : ((x >>= f) p).Only K :=
  Only.bind hx fun r => by
    obtain ⟨r, p'⟩ := r
    cases r with
    | ok a => exact hf a p'
    | error failure => trivial

theorem only_finish (s : Settings) (startedAt : Nat) (workspace : Workspace) (wheel : Wheel)
    (treeDigest : String) (archive : Archive.Summary) (p : Progress)
    (hL : ∀ level text, K (.log level text)) (hQ : ∀ q, Quiet q → K q)
    (hC : ∀ call, call.isEnvironment → (t.perform call).Only K) :
    (finish s t startedAt workspace wheel treeDigest archive p).Only K := by
  refine only_steps_bind ?_ fun _ _ => trivial
  unfold reconcile
  cases s.reconcile with
  | false => exact (only_request.mpr (hL _ _)).bind fun _ => trivial
  | true =>
    exact only_steps_bind (only_stage hL (hQ _ trivial) (only_refresh s wheel hQ hC))
      fun _ _ => trivial

theorem only_cleanUp (s : Settings) (workspace : Workspace) (hL : ∀ level text, K (.log level text))
    (hR : ∀ q, q.Removes workspace.root → K q) : (cleanUp s (some workspace)).Only K := by
  simp only [cleanUp]
  split
  · exact only_request.mpr (hL _ _)
  · refine ((Workspace.only_cleanup workspace).mono hR).bind fun r => ?_
    cases r with
    | ok => trivial
    | error e => exact only_request.mpr (hL _ _)

theorem only_logOutcome (result : Except Failure Report)
    (hL : ∀ level text, K (.log level text)) : (logOutcome result).Only K := by
  cases result <;> exact only_request.mpr (hL _ _)

end Calls

end Pipeline

end LayerPack
