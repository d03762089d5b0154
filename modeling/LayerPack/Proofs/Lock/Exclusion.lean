import LayerPack.Proofs.Lock.Crew
import LayerPack.Proofs.Text.Utf8

/-! Mutual exclusion on a workspace. Runs with the same workspace have the same lock file. Two of them
can only work at the same time if an earlier step of one of them took the lock file away, and then
links redirect a path, or the output of that run is the lock file itself: the check of settings
keeps the output out of the workspace, but not off the lock file beside it. -/
namespace LayerPack

open Program Machine

namespace RunLock

/-- The name of the lock file of a workspace. -/
def lockName (name : Name) : Name := Bytes.ofString (Bytes.display name ++ ".lock")

theorem properName_lockName {name : Name} (h : ProperName name) : ProperName (lockName name) := by
  have long : 5 ≤ (lockName name).length := by
    have : (Bytes.ofString ".lock").length = 5 := by decide
    rw [lockName, Bytes.ofString_append, List.length_append]
    omega
  have short {other : Name} (hn : other.length ≤ 2) : lockName name ≠ other := by
    rintro rfl
    omega
  refine ⟨short (by simp), ?_, short (by decide), short (by decide)⟩
  rw [lockName, Bytes.ofString_append, List.mem_append, not_or]
  exact ⟨Bytes.notMem_ofString_display h.noSlash, by decide⟩

/-- The lock file has a longer name than the workspace as it is shown. -/
theorem lockName_ne (name : Name) : lockName name ≠ name := by
  intro h
  have shown : Bytes.display name ++ ".lock" = Bytes.display name := by
    conv => rhs; rw [← h, lockName, Bytes.display_ofString]
  have := congrArg (fun s : String => s.toList.length) shown
  simp at this

/-- The lock file stands beside the workspace. -/
theorem spells_pathFor {workspace : Path} {up : List Name} {name : Name}
    (h : workspace.Spells (up ++ [name])) :
    (pathFor workspace).Spells (up ++ [lockName name]) := by
  have proper : ProperName name := h.proper name (by simp)
  unfold pathFor
  rw [h.fileName?]
  exact h.withFileName (properName_lockName proper)

end RunLock

/-- A workspace has a name in a directory, and its lock file has another one there. -/
theorem Settings.Laid.spells_lock {s : Settings} (laid : s.Laid) : ∃ up name,
    s.workspace.names = up ++ [name] ∧
      (RunLock.pathFor s.workspace).Spells (up ++ [RunLock.lockName name]) := by
  obtain ⟨up, name, split⟩ : ∃ up name, s.workspace.names = up ++ [name] :=
    ⟨_, _, (List.dropLast_concat_getLast laid.notRoot).symm⟩
  exact ⟨up, name, split, RunLock.spells_pathFor (split ▸ laid.workspace)⟩

variable {s : Settings} {q : Request}

/-- What a run can take away: its workspace, its output, or the hidden file beside that. -/
theorem Request.OfRun.taking (h : q.OfRun s) (takes : ∃ p, q.Takes p) :
    q = .unlink s.workspace ∨ q = .removeTree s.workspace ∨ q = .unlink s.output ∨
      ∃ fresh, q = .unlink (Archive.partialPath s.output fresh) ∨
        q = .rename (Archive.partialPath s.output fresh) s.output := by
  have quiet {q : Request} (h : q.Quiet) : ¬ ∃ p, q.Takes p := by
    rintro ⟨p, hp⟩
    cases q with
    | unlink | removeTree | rename => exact h
    | _ => exact hp
  cases h with
  | quiet h => exact (quiet h takes).elim
  | log | print | run | mkdir => exact takes.elim fun p hp => hp.elim
  | unlink => exact .inr (.inr (.inl rfl))
  | removes h =>
    rcases h with h | rfl | rfl
    · exact (quiet h takes).elim
    · exact .inl rfl
    · exact .inr (.inl rfl)
  | archives fresh h =>
    rcases h with h | ⟨handle, bytes, rfl⟩ | rfl | rfl | rfl
    · exact (quiet h takes).elim
    · exact takes.elim fun p hp => hp.elim
    · exact takes.elim fun p hp => hp.elim
    · exact .inr (.inr (.inr ⟨fresh, .inl rfl⟩))
    · exact .inr (.inr (.inr ⟨fresh, .inr rfl⟩))

/-- What stands somewhere is safe from a run, with all above it, if links do not redirect what the run
takes away, and if it lies neither in the workspace nor below the hidden file and is not the output. An
output above it is a directory that is not empty, so it is not replaced. -/
theorem Request.OfRun.look_step {names place : List Name} {node : Node} {o : Outside} {m : Machine}
    (ofRun : q.OfRun s) (laid : s.Laid) (there : m.disk.get? names = some node)
    (literal : ∀ p, q.Takes p → m.Literal p) (workspace : ¬ s.workspace.names <+: names)
    (output : q.Takes s.output → s.output.names ≠ names)
    (hidden : ∀ fresh, q.Takes (Archive.partialPath s.output fresh) →
      ¬ (Archive.partialPath s.output fresh).names <+: names)
    (takes : ∃ p, q.Takes p) (hplace : place <+: names) :
    (answer o q m).2.disk.look place = m.disk.look place := by
  have aside {p : Path} (h : ¬ p.names <+: names) : ¬ p.names <+: place := fun hp => h (hp.trans hplace)
  have full (hp : q.Takes s.output) (ho : s.output.names <+: place) :
      ∃ name rest, m.disk.get? (s.output.names ++ name :: rest) = some node := by
    obtain ⟨rest, hrest⟩ := ho.trans hplace
    cases rest with
    | nil => exact (output hp (by simpa using hrest)).elim
    | cons name rest => exact ⟨name, rest, hrest ▸ there⟩
  rcases ofRun.taking takes with rfl | rfl | rfl | ⟨fresh, rfl | rfl⟩
  · refine Machine.look_step o m takes literal ?_ fun p hp => by cases hp
    rintro p rfl
    exact aside workspace
  · refine Machine.look_step o m takes literal ?_ ?_
    · rintro p rfl
      exact aside workspace
    · rintro p ⟨⟩
      rw [laid.written.1]
      exact Disk.splitLast_ofNames laid.workspace.proper laid.notRoot
  · by_cases ho : s.output.names <+: place
    · obtain ⟨name, rest, below⟩ := full rfl ho
      rcases changed_unlink o m s.output with ⟨-, hop, -⟩ | ⟨-, same⟩
      · exact (Disk.unlink_above (literal _ rfl) below hop).elim
      · rw [same.disk]
    · refine Machine.look_step o m takes literal ?_ fun p hp => by cases hp
      rintro p rfl
      exact ho
  · refine Machine.look_step o m takes literal ?_ fun p hp => by cases hp
    rintro p rfl
    exact aside (hidden fresh rfl)
  · by_cases ho : s.output.names <+: place
    · obtain ⟨name, rest, below⟩ := full (.inr rfl) ho
      rcases changed_rename o m (Archive.partialPath s.output fresh) s.output with
        ⟨-, hop, -⟩ | ⟨-, same⟩
      · rw [Disk.rename_above (literal _ (.inr rfl)) below hop]
      · rw [same.disk]
    · refine Machine.look_step o m takes literal ?_ fun p hp => by cases hp
      rintro p (rfl | rfl)
      · exact aside (hidden fresh (.inl rfl))
      · exact ho

namespace Turn

variable {ι : Type} {o : Outside} {L : Path} {e : Turn ι}

/-- Why a run with these settings can lose a lock file. -/
inductive Cause (s : Settings) (L : Path) (e : Turn ι) : Prop
  /-- A link redirects a path at which something is taken away. -/
  | redirected (p : Path) (takes : e.request.Takes p) (away : ¬ e.machine.Literal p)
  /-- A link stands on the way to the lock file. -/
  | linked (up : Place) (target : Bytes) (above : up <+: L.names)
      (link : e.machine.disk.get? up = some (.link target))
  /-- The output is the lock file. -/
  | output (takes : e.request.Takes s.output) (same : s.output.names = L.names)
  /-- What the run takes for its hidden file is the lock file, or a directory above it. -/
  | hidden (fresh : String) (takes : e.request.Takes (Archive.partialPath s.output fresh))
      (above : (Archive.partialPath s.output fresh).names <+: L.names)

theorem Loses.takes (h : e.Loses o L) (spares : e.Spares o L) : ∃ p, e.request.Takes p := by
  obtain ⟨id, before, after⟩ := h
  cases hforeign : e.request.isForeign with
  | true => exact (after ((spares hforeign).2.2 id before)).elim
  | false =>
    refine Classical.byContradiction fun none => after ?_
    exact (preserves_step o e.machine hforeign fun p hp => none ⟨p, hp⟩).leads before

/-- If a run loses the lock file of its workspace, it is for one of these reasons. -/
theorem Loses.cause (laid : s.Laid) (h : e.Loses o (RunLock.pathFor s.workspace))
    (ofRun : e.request.OfRun s) (takes : ∃ p, e.request.Takes p) :
    e.Cause s (RunLock.pathFor s.workspace) := by
  obtain ⟨up, name, hname, spells⟩ := laid.spells_lock
  have hnames : (RunLock.pathFor s.workspace).names = up ++ [RunLock.lockName name] :=
    spells.names_eq
  rw [← hnames] at spells
  refine Classical.byContradiction fun none => ?_
  have noLink (above : Place) (target : Bytes) (ha : above <+: (RunLock.pathFor s.workspace).names) :
      e.machine.disk.get? above ≠ some (.link target) := fun link =>
    none (.linked above target ha link)
  obtain ⟨id, before, after⟩ := h
  obtain ⟨mode, content, -, there, -⟩ := before.arrives spells noLink
  refine after (before.straight spells noLink fun place hplace => ?_)
  refine ofRun.look_step laid there ?_ ?_ ?_ ?_ takes hplace
  · exact fun p hp => Classical.byContradiction fun away => none (.redirected p hp away)
  · -- the workspace and the lock file are two names in one directory
    rw [hname, hnames]
    exact not_prefix_beside (RunLock.lockName_ne name).symm up
  · exact fun hp same => none (.output hp same)
  · exact fun fresh hp above => none (.hidden fresh hp above)

end Turn

namespace Crew

variable {ι : Type} [DecidableEq ι] {o : Outside}

/-- Runs that are about to take their locks. -/
def start (m : Machine) (cwd : ι → Place) (t : ι → Terminal) (s : ι → Settings)
    (python : ι → Path) : Crew ι where
  machine := m
  runner k := { cwd := cwd k, todo := (Args.lockAndRun (t k) (s k) (python k)).run }

/-- If two runs with the same workspace ever work at the same time, then some run has taken the lock
file away before: links redirect what it removes or the way to the lock file, or its output is the lock
file, or its hidden file has the name of a directory above the workspace. -/
theorem meeting_has_cause {m : Machine} {cwd : ι → Place} {t : ι → Terminal} {s : ι → Settings}
    {python : ι → Path} {w : Path} (accepted : ∀ k, (s k).Accepted) (same : ∀ k, (s k).workspace = w)
    (form : m.disk.root.WellFormed) (schedule : List ι)
    (spares : ∀ e ∈ (start m cwd t s python).turns o schedule, e.Spares o (RunLock.pathFor w))
    {j k : ι} (distinct : j ≠ k)
    (hj : (((start m cwd t s python).play o schedule).runner j).IsInside)
    (hk : (((start m cwd t s python).play o schedule).runner k).IsInside) :
    ∃ e ∈ (start m cwd t s python).turns o schedule,
      e.Loses o (RunLock.pathFor w) ∧ e.Cause (s e.who) (RunLock.pathFor w) := by
  have follows (i : ι) : ((start m cwd t s python).runner i).Follows (RunLock.pathFor w)
      (Request.OfRun (s i)) := by
    have := Args.lockAndRun_follows (t i) (s i) (python i)
    rw [same i] at this
    exact this.mono fun _ _ _ => trivial
  have absolute : (RunLock.pathFor w).isAbsolute := by
    obtain ⟨up, name, -, spells⟩ := (accepted j).laid.spells_lock
    exact same j ▸ spells.absolute
  have begun : (start m cwd t s python).Locked (RunLock.pathFor w) := by
    refine ⟨form, ?_, ?_, ?_⟩
    · exact fun i file hf => by cases hf
    · exact fun i file hf => by cases hf
    · rintro i i' ⟨file, hf⟩
      cases hf
  obtain ⟨e, he, loses⟩ : ∃ e ∈ (start m cwd t s python).turns o schedule,
      e.Loses o (RunLock.pathFor w) := by
    refine Classical.byContradiction fun none => distinct ?_
    have locked := begun.play absolute (fun i _ => Request.OfRun.not_locking) follows
      fun e he => ⟨fun loses => none ⟨e, he, loses⟩, spares e he⟩
    exact locked.alone j k hj hk
  refine ⟨e, he, loses, ?_⟩
  have takes := loses.takes (spares e he)
  have laid := (accepted e.who).laid
  rw [← same e.who] at loses ⊢
  obtain ⟨hold, allowed⟩ := allowed_of_mem_turns follows e he
  have ofRun : e.request.OfRun (s e.who) := by
    obtain ⟨p, hp⟩ := takes
    cases hold with
    | none =>
      rcases allowed with h | h
      · exact (h ▸ hp : Request.Takes p (.openWrite false _)).elim
      · exact h
    | opened file => exact ((allowed : e.request = _) ▸ hp : Request.Takes p (.lock file)).elim
    | taken file =>
      rcases allowed with h | h
      · exact (h ▸ hp : Request.Takes p (.unlock file)).elim
      · exact h
  exact loses.cause laid ofRun takes

/-- Two runs in one workspace. The output of the first is the lock file. -/
def smallSettings : Bool → Settings
  | false => .small "/work" "/work.lock"
  | true => .small "/work" "/out.zip"

def small : Crew Bool :=
  start (.small []) (fun _ => []) (fun _ => ⟨false, true, false⟩) smallSettings
    fun _ => .ofString "python3"

set_option maxRecDepth 100000 in
/-- The first run drops an old archive and with it the lock file. The second run makes a new one and
locks it while the first is still at work. -/
theorem lock_file_as_output_meets :
    (∀ k, (smallSettings k).Accepted ∧
      ((small.play (.small []) (List.replicate 16 false ++ List.replicate 4 true)).runner k).IsInside) ∧
    ∃ e ∈ small.turns (.small []) (List.replicate 16 false ++ List.replicate 4 true),
      e.Loses (.small []) (.ofString "/work.lock") ∧
        e.Cause (smallSettings e.who) (.ofString "/work.lock") := by
  have accepted : ∀ k, (smallSettings k).Accepted
    | false => ⟨.small "/work" "/work.lock", .small [], .small [], by decide +kernel⟩
    | true => ⟨.small "/work" "/out.zip", .small [], .small [], by decide +kernel⟩
  have alone : ∀ e ∈ small.turns (.small []) (List.replicate 16 false ++ List.replicate 4 true),
      e.request.isForeign = false := by decide +kernel
  have first : ((small.play (.small []) (List.replicate 16 false ++ List.replicate 4 true)).runner
      false).IsInside := ⟨⟨[Bytes.ofString "work.lock"], 0⟩, by decide +kernel⟩
  have second : ((small.play (.small []) (List.replicate 16 false ++ List.replicate 4 true)).runner
      true).IsInside := ⟨⟨[Bytes.ofString "work.lock"], 1⟩, by decide +kernel⟩
  have meeting := meeting_has_cause (o := .small []) (w := .ofString "/work") accepted
    (fun k => by cases k <;> rfl) (by decide +kernel) _ (fun e he hf => ?_) (by decide) first second
  · refine ⟨fun k => ⟨accepted k, ?_⟩, ?_⟩
    · cases k
      · exact first
      · exact second
    · exact meeting
  · rw [alone e he] at hf
    cases hf

end Crew

end LayerPack
