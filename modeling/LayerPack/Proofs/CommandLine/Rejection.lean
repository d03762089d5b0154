import LayerPack.Proofs.CommandLine.Preparing
import LayerPack.Proofs.Disk.Filed
import LayerPack.Proofs.Host.Growth
import LayerPack.Proofs.Lock.Exclusion

/-! Sessions that end before their run. Up to the lock nothing on disk is changed. Taking the lock makes
the lock file and the directories above it as far as they are missing; no check keeps the output apart
from these. -/
namespace LayerPack

open Program Machine Session

namespace Disk

variable {d d' d'' : Disk} {cwd place : Place} {p up : Path} {names : List Name}

/-- All that is new is a file, empty, where its path leads, and the directories of that path as far as
they were missing. -/
structure LockMade (file : Path) (d d' : Disk) : Prop where
  grows : d.Grows d'
  added : ∀ place, d.get? place = none → d'.get? place ≠ none →
    (d'.look place = some (.dir []) ∧
      ∃ up p, file.parent? = some up ∧ Path.Above p up ∧ d'.seat [] p = some place) ∨
    ∃ id, d'.resolve [] true file = .ok (place, .file id newMode .empty)

theorem LockMade.refl (file : Path) (d : Disk) : d.LockMade file d :=
  ⟨.refl d, fun _ h h' => (h' h).elim⟩

theorem MadeWay.lockMade {file : Path} (h : d.MadeWay up d') (hp : file.parent? = some up)
    (h' : d'.LockMade file d'') : d.LockMade file d'' := by
  refine ⟨h.grows.trans h'.grows, fun place hn there => ?_⟩
  by_cases hg : d'.get? place = none
  · exact h'.added place hg there
  · obtain ⟨hlook, p, above, hs⟩ := h.added place hn hg
    exact .inl ⟨(h'.grows place hg).trans hlook, up, p, hp, above, h'.grows.seat hs⟩

theorem openWrite_lockMade {handle : Handle} (hp : p.isAbsolute)
    (h : d.openWrite cwd false p = .ok (handle, d')) : d.LockMade p d' := by
  rcases openWrite_ok h with ⟨id, mode, content, -, -, rfl⟩ | ⟨parent, name, hl, -, hd⟩
  · exact .refl p _
  obtain ⟨⟨es, he⟩, hn, -⟩ := lookup_sound hl
  have seen (q : Place) :
      d'.get? q = (d.put (parent ++ [name]) (.file d.nextId newMode .empty)).get? q := by
    rw [hd]
    rfl
  have grows : d.Grows d' := hd ▸ made_grows hn
  refine ⟨grows, fun place hplace there => .inr ⟨d.nextId, ?_⟩⟩
  obtain rfl : place = parent ++ [name] := by
    rw [seen] at there
    by_cases hpre : parent ++ [name] <+: place
    · obtain ⟨rest, rfl⟩ := hpre
      rw [get?_put_below he] at there
      cases rest with
      | nil => rw [List.append_nil]
      | cons => simp [Node.get?] at there
    · refine (there (Node.look_eq_none.mp ?_)).elim
      exact (look_put hpre).trans (Node.look_eq_none.mpr hplace)
  rw [resolve_absolute hp [] cwd]
  exact lookup_lands grows.keepsWays ((seen _).trans (get?_put_self he)) hl ⟨rfl, rfl⟩

theorem LockMade.noNewLink {file : Path} (h : d.LockMade file d') : d.NoNewLink d' := by
  intro place target hq
  by_cases hn : d.get? place = none
  · rcases h.added place hn (by simp [hq]) with ⟨hlook, -⟩ | ⟨id, hr⟩
    · rw [show d'.look place = some (.link target) from Node.look_eq_link.mpr hq] at hlook
      cases hlook
    · have there : d'.get? place = some (.file id newMode .empty) := lookup_sound (resolve_ok.mp hr)
      rw [hq] at there
      cases there
  · exact Node.look_eq_link.mp ((h.grows place hn).symm.trans (Node.look_eq_link.mpr hq))

/-- If no link stands at the path or above it, all that is new has the names of the path. -/
theorem LockMade.look {file : Path} (h : d.LockMade file d') (hf : file.Spells names)
    (noLink : ∀ up target, up <+: names → d.get? up ≠ some (.link target)) (place : Place) :
    d'.look place = d.look place ∨ place <+: names := by
  by_cases hn : d.get? place = none
  case neg => exact .inl (h.grows place hn)
  by_cases there : d'.get? place = none
  · exact .inl ((Node.look_eq_none.mpr there).trans (Node.look_eq_none.mpr hn).symm)
  right
  have still (up : Place) (target : Bytes) (hu : up <+: names) : d'.get? up ≠ some (.link target) :=
    fun ht => noLink up target hu (h.noNewLink up target ht)
  rcases h.added place hn there with ⟨-, up, p, hup, above, hs⟩ | ⟨id, hr⟩
  · obtain ⟨front, name, rfl, hfront⟩ := hf.parent hup
    obtain ⟨above, hpre, hp⟩ := above.spells hfront
    have hpre := hpre.trans (List.prefix_append front [name])
    rw [seat_spelled hp (fun q target hq _ => still q target (hq.trans hpre)) hs]
    exact hpre
  · obtain ⟨mode, content, hc, -, arrived⟩ := Leads.arrives hf ⟨place, _, _, hr⟩ still
    have hl := resolve_ok.mp hr
    unfold lookup at hl
    rw [startOf_absolute hf.absolute, hc] at hl
    change chase _ _ _ _ _ = _ at hl
    rw [chase, arrived] at hl
    cases hl
    exact List.prefix_rfl

end Disk

namespace RunLock

variable {o : Outside} {m : Machine} {workspace L : Path} {names : List Name}

theorem take_ends (hL : L.isAbsolute) : (take L).Ends (answer o) m fun _ _ m' =>
    m.disk.LockMade L m'.disk := by
  refine Ends.bind (p := request (.openWrite false L))
    (M := fun _ _ m' => m.disk.LockMade L m'.disk) ?_ fun r _ m₁ made => ?_
  · change m.disk.LockMade L (answer o (.openWrite false L) m).2.disk
    rcases opened_openWrite o m false L with ⟨handle, -, hop, -⟩ | ⟨-, same⟩
    · exact Disk.openWrite_lockMade hL hop
    · rw [same.disk]
      exact .refl L m.disk
  cases r with
  | error e => exact made
  | ok handle =>
    refine Ends.bind (p := request (.lock handle)) (M := fun _ _ m₂ => m₂.disk = m₁.disk)
      (same_lock o m₁ handle).disk fun r _ m₂ same => ?_
    rw [← same] at made
    cases r with
    | ok => exact made
    | error e => exact made

/-- Trying the lock makes at most the lock file and what is missing above it. -/
theorem acquire_ends (hL : (pathFor workspace).Spells names) :
    (acquire workspace).Ends (answer o) m fun _ _ m' =>
      m.disk.LockMade (pathFor workspace) m'.disk := by
  unfold acquire
  dsimp only
  split
  · exact take_ends hL.absolute
  next up hup =>
    obtain ⟨front, -, -, spells⟩ := hL.parent hup
    refine Ends.bind (p := Files.makeDirs up) (M := fun _ _ m' => m.disk.MadeWay up m'.disk)
      (Files.makeDirs_madeWay spells o m) fun r _ m₁ way => ?_
    cases r with
    | error e => exact way.lockMade hup (.refl _ _)
    | ok => exact (take_ends hL.absolute).mono fun _ _ _ h => way.lockMade hup h

/-- Trying the lock asks for what is missing above its file, for the file and for the lock on it. -/
theorem only_acquire {K : Request → Prop} (hQ : ∀ q, q.Quiet → K q) (hM : ∀ p, K (.mkdir p))
    (hW : ∀ p, K (.openWrite false p)) (hK : ∀ handle, K (.lock handle))
    (hL : ∀ level text, K (.log level text)) (workspace : Path) : (acquire workspace).Only K := by
  have taken (L : Path) : (take L).Only K := by
    refine (only_request.mpr (hW L)).bind fun r => ?_
    cases r with
    | error e => trivial
    | ok handle =>
      refine (only_request.mpr (hK handle)).bind fun r => ?_
      cases r with
      | error e => trivial
      | ok => exact (only_request.mpr (hL _ _)).bind fun _ => trivial
  unfold acquire
  dsimp only
  split
  · exact taken _
  next up _ =>
    refine Only.bind ((Files.only_makeDirs up).mono ?_) fun r => ?_
    · rintro q (hq | ⟨p, -, rfl⟩)
      · exact hQ q hq
      · exact hM p
    · cases r with
      | error e => trivial
      | ok => exact taken _

/-- A lock that is not obtained ends a session with an exit status of its own or a plain one. -/
theorem acquire_gives (workspace : Path) :
    (orFail (acquire workspace)).Gives [1, 3] fun _ => True := by
  have described (message : String) : (RunError.described message).exitCode ∈ [1, 3] := by
    simp [RunError.exitCode]
  have taken (L : Path) : (orFail (take L)).Gives [1, 3] fun _ => True := by
    intro r
    cases r with
    | error e => exact described _
    | ok handle =>
      intro r
      cases r with
      | ok => exact fun _ => trivial
      | error e =>
        have code : (if e = .wouldBlock then RunError.locked L.display
            else .described ("locking " ++ L.display ++ ": " ++ e.message)).exitCode ∈ [1, 3] := by
          split
          · simp [RunError.exitCode]
          · exact described _
        exact code
  unfold acquire
  dsimp only
  split
  · exact taken _
  next up _ =>
    refine Returns.bind (returns_true (Files.makeDirs up)) fun r _ => ?_
    cases r with
    | error e => exact described _
    | ok => exact taken _

end RunLock

/-- Others are asked for nothing but the version of the installer. -/
def Request.Aloof (q : Request) : Prop :=
  q.isForeign = true → ∃ python deadline, q = .run (Interpreter.versionCommand python) deadline

theorem Request.Preparing.aloof {q : Request} (h : q.Preparing) : q.Aloof := by
  cases h with
  | quiet h =>
    cases q with
    | run | collaborate => exact h.elim
    | _ => exact fun h => by cases h
  | log | print => exact fun h => by cases h
  | version python deadline => exact fun _ => ⟨python, deadline, rfl⟩

/-- Asking an installer for its version leaves the disk alone. -/
def Outside.AnswersIdly (o : Outside) : Prop :=
  ∀ python deadline m,
    (answer o (.run (Interpreter.versionCommand python) deadline) m).2.disk = m.disk

/-- What only prepares leaves the disk as it is. -/
theorem Outside.AnswersIdly.disk {α : Type} {p : Program α} {o : Outside} (idle : o.AnswersIdly)
    (hp : p.Only Request.Preparing) (m : Machine) : (p.run (answer o) m).2.disk = m.disk := by
  refine hp.run_inv (I := fun m' : Machine => m'.disk = m.disk) (fun q m' hq h => Eq.trans ?_ h) rfl
  cases hq with
  | quiet hq => exact (same_quiet hq o m').disk
  | log level text => exact (same_log level text).disk
  | print stream text => exact (same_print o m' stream text).disk
  | version python deadline => exact idle python deadline m'

namespace Args

/-- The part of a session before the run of the pipeline. -/
def begins (a : Args) : Program (Except RunError Ready) := do
  let t ← Terminal.openWith a.isVerbose a.isQuiet
  (a.opening t).run

/-- The part of a session before the lock is tried. -/
def settles (a : Args) : Program (Except RunError (Settings × Path)) := do
  let t ← Terminal.openWith a.isVerbose a.isQuiet
  (a.prepare t).run

/-- If a session ends before its run, then it has ended with that. -/
theorem execute_of_rejected {σ : Type} {answer : Answers σ} {state : σ} {a : Args} {e : RunError}
    (h : (a.begins.run answer state).1 = .error e) :
    a.execute.Ends answer state fun r es s =>
      r = .error e ∧ es = a.begins.trace answer state ∧ s = (a.begins.run answer state).2 := by
  unfold begins at h ⊢
  rw [bind_eq, run_bind] at h ⊢
  rw [trace_bind, execute_eq]
  refine Ends.bind (M := fun t es s => t = _ ∧ es = _ ∧ s = _) ⟨rfl, rfl, rfl⟩ ?_
  rintro _ _ _ ⟨rfl, rfl, rfl⟩
  rw [Session.ends_bind]
  refine Ends.mono (Q := fun r es s => r = .error e ∧ es = _ ∧ s = _) ⟨h, rfl, rfl⟩ ?_
  rintro _ _ _ ⟨rfl, rfl, rfl⟩
  exact ⟨rfl, rfl, rfl⟩

variable {o : Outside} {m : Machine}

theorem only_announceRun {K : Request → Prop} (t : Terminal)
    (hP : t.quiet = false → ∀ text, K (.print .out text)) (s : Settings) (lock : RunLock) :
    (announceRun t s lock).run.Only K := by
  refine only_bind (only_printing (t.only_detail hP _)) fun _ => ?_
  exact only_bind (only_announce t hP _) fun _ => only_printing (t.only_unlessQuiet hP _ _ _)

theorem announceRun_gives (t : Terminal) (s : Settings) (lock : RunLock) :
    (announceRun t s lock).Gives [1, 3] fun _ => True := by
  have one : 1 ∈ [1, 3] := by decide
  have announced (stages : List Stage) : (announce t stages).Gives [1, 3] fun _ => True := by
    induction stages with
    | nil => trivial
    | cons stage rest ih => exact (gives_printing _ one).bind fun _ _ => ih
  refine (gives_printing _ one).bind fun _ _ => ?_
  exact (announced _).bind fun _ _ => gives_printing _ one

theorem only_enter {K : Request → Prop} (t : Terminal)
    (hP : t.quiet = false → ∀ text, K (.print .out text)) (hU : ∀ handle, K (.unlock handle))
    (s : Settings) (hA : (RunLock.acquire s.workspace).Only K) : (enter t s).run.Only K := by
  refine only_bind (only_orFail hA) fun lock => ?_
  refine Only.bind (only_announceRun t hP s lock) fun r => ?_
  cases r with
  | ok => trivial
  | error e => exact (only_request.mpr (hU _)).bind fun _ => trivial

theorem enter_gives (t : Terminal) (s : Settings) : (enter t s).Gives [1, 3] fun _ => True := by
  refine (RunLock.acquire_gives s.workspace).bind fun lock _ => ?_
  refine Returns.bind (announceRun_gives t s lock) fun r hr => ?_
  cases r with
  | ok => trivial
  | error e => exact fun _ => hr

/-- From the lock on, a session that fails leaves the lock file at most. -/
theorem enter_ends {t : Terminal} {s : Settings} (laid : s.Laid) (idle : o.AnswersIdly) :
    (enter t s).run.Ends (answer o) m fun r _ m' => ∀ e, r = .error e →
      m.disk.LockMade (RunLock.pathFor s.workspace) m'.disk ∧ e.exitCode ∈ [1, 3] := by
  obtain ⟨up, name, -, spells⟩ := laid.spells_lock
  have made : (enter t s).run.Ends (answer o) m fun _ _ m' =>
      m.disk.LockMade (RunLock.pathFor s.workspace) m'.disk := by
    refine Session.ends_bind.mpr ((RunLock.acquire_ends spells).mono fun r es m₁ h => ?_)
    cases r with
    | error e => exact h
    | ok lock =>
      refine Ends.bind (p := (announceRun t s lock).run) (M := fun _ _ m₂ => m₂.disk = m₁.disk)
        (idle.disk (only_announceRun t (fun _ => .print _) s lock) m₁) fun r _ m₂ same => ?_
      rw [← same] at h
      cases r with
      | ok => exact h
      | error e => exact h
  exact (made.and (enter_gives t s).ends).mono fun r _ _ h e he => ⟨h.1, h.2.2 e he⟩

/-- A session that fails before its run has failed before the lock, with the disk as it was, or from the
lock on, with the lock file at most. -/
theorem begins_ends (a : Args) (idle : o.AnswersIdly) : a.begins.Ends (answer o) m fun r es m' =>
    (∀ asked ∈ es, asked.1.Aloof) ∧ ∀ e, r = .error e →
      (m'.disk = m.disk ∧ e.exitCode ∈ [1, 2]) ∨
      ∃ s python, (Machine.run o a.settles m).1 = .ok (s, python) ∧ s.Laid ∧
        m.disk.LockMade (RunLock.pathFor s.workspace) m'.disk ∧ e.exitCode ∈ [1, 3] := by
  have opened := Terminal.only_openWith a.isVerbose a.isQuiet
  have ran : (Machine.run o a.settles m).1 = ((a.prepare
      ((Terminal.openWith a.isVerbose a.isQuiet).run (answer o) m).1).run.run (answer o)
        ((Terminal.openWith a.isVerbose a.isQuiet).run (answer o) m).2).1 := by
    rw [Machine.run, settles, bind_eq, run_bind]
  refine Ends.bind (M := fun t es m₀ => (∀ asked ∈ es, asked.1.Quiet) ∧ m₀.disk = m.disk ∧
    (Machine.run o a.settles m).1 = ((a.prepare t).run.run (answer o) m₀).1)
    ⟨opened.trace _ _, (same_run opened o m).disk, ran⟩ ?_
  rintro t es m₀ ⟨looked, same, ran⟩
  have preparing : (a.prepare t).run.Only Request.Preparing :=
    only_prepare (fun _ => .quiet) a t .log .version fun _ => .print _
  unfold opening
  rw [Session.ends_bind]
  refine Ends.mono (Q := fun r es₁ m₁ => (∀ asked ∈ es₁, asked.1.Preparing) ∧
    m₁.disk = m₀.disk ∧ r = (Machine.run o a.settles m).1)
    ⟨preparing.trace _ _, idle.disk preparing m₀, ran.symm⟩ ?_
  rintro r es₁ m₁ ⟨prepared, same₁, hr⟩
  have given := (a.prepare_gives t).run (answer o) m₀
  rw [← ran, ← hr] at given
  have before : ∀ asked ∈ es ++ es₁, asked.1.Aloof := fun asked hm => by
    rcases List.mem_append.mp hm with hm | hm
    · exact (Request.Preparing.quiet (looked asked hm)).aloof
    · exact (prepared asked hm).aloof
  cases r with
  | error e =>
    refine ⟨before, ?_⟩
    rintro _ ⟨⟩
    exact .inl ⟨same₁.trans same, given⟩
  | ok found =>
    obtain ⟨s, python⟩ := found
    dsimp only
    rw [Session.ends_bind]
    have host {q : Request} (h : q.isForeign = false) : q.Aloof := fun hq => by simp [h] at hq
    have entering : (enter t s).run.Only Request.Aloof :=
      only_enter t (fun _ _ => host rfl) (fun _ => host rfl) s <|
        RunLock.only_acquire (fun _ h => (Request.Preparing.quiet h).aloof) (fun _ => host rfl)
          (fun _ => host rfl) (fun _ => host rfl) (fun _ _ => host rfl) _
    refine ((enter_ends given idle).and entering.ends).mono ?_
    rintro r es₂ m₂ ⟨entered, aloof⟩
    rw [same₁, same] at entered
    have all : ∀ asked ∈ es ++ (es₁ ++ es₂), asked.1.Aloof := fun asked hm => by
      rw [← List.append_assoc] at hm
      exact (List.mem_append.mp hm).elim (before asked) (aloof asked)
    cases r with
    | ok lock =>
      refine ⟨?_, fun _ h => by cases h⟩
      simpa [pure_eq_done, trace] using all
    | error e =>
      refine ⟨all, ?_⟩
      rintro _ ⟨⟩
      obtain ⟨made, code⟩ := entered e rfl
      exact .inr ⟨s, python, hr.symm, given, made, code⟩

/-- A session that ends before its run has asked others for nothing but the version of the installer.
It leaves the disk as it was, or it has passed all checks before the lock and leaves the lock file with
its missing directories at most. Unless links redirect the lock file, the workspace is as it was, and so
is the output if it is neither the lock file nor above it. -/
theorem rejection_leaves (a : Args) (idle : o.AnswersIdly) {e : RunError}
    (rejected : (Machine.run o a.begins m).1 = .error e) :
    a.execute.Ends (answer o) m fun r es m' => r = .error e ∧ (∀ asked ∈ es, asked.1.Aloof) ∧
      (m'.disk = m.disk ∨ e.exitCode ≠ 2 ∧ ∃ s python,
        (Machine.run o a.settles m).1 = .ok (s, python) ∧
        m.disk.LockMade (RunLock.pathFor s.workspace) m'.disk ∧
        ((∀ up target, up <+: (RunLock.pathFor s.workspace).names →
            m.disk.get? up ≠ some (.link target)) →
          ∀ place,
            (s.workspace.names <+: place → m'.disk.look place = m.disk.look place) ∧
            (s.output.names <+: place → m'.disk.look place = m.disk.look place ∨
              s.output.names <+: (RunLock.pathFor s.workspace).names))) := by
  refine (execute_of_rejected rejected).mono ?_
  rintro _ _ _ ⟨rfl, rfl, rfl⟩
  obtain ⟨aloof, left⟩ := a.begins_ends idle (m := m)
  refine ⟨rfl, aloof, ?_⟩
  rcases left e rejected with ⟨same, -⟩ | ⟨s, python, settled, laid, made, code⟩
  · exact .inl same
  refine .inr ⟨?_, s, python, settled, made, fun noLink place => ?_⟩
  · rintro two
    rw [two] at code
    exact absurd code (by decide)
  obtain ⟨up, name, hup, spells⟩ := laid.spells_lock
  rw [spells.names_eq] at noLink ⊢
  rcases made.look spells noLink place with same | inside
  · exact ⟨fun _ => same, fun _ => .inl same⟩
  refine ⟨fun hpre => ?_, fun hpre => .inr (hpre.trans inside)⟩
  -- The workspace stands beside its lock file, under another name.
  exact (not_prefix_beside (RunLock.lockName_ne name).symm up ((hup ▸ hpre).trans inside)).elim

end Args

/-! A lock that cannot be had since its file has too long a name. The directory of the workspace has
been made for it, and this is the output. -/

/-- An interpreter that says nothing and writes nothing. -/
def Outside.idle : Outside where
  collaborate _ m := (none, m)
  process _ _ m := (some (.ok ⟨.code 0, .empty, .empty⟩), m)

theorem Outside.idle_answersIdly : idle.AnswersIdly := by
  rintro python (_ | limit) m
  · rfl
  · change (waited limit _).2.disk = m.disk
    unfold waited idle
    dsimp only
    split <;> rfl

namespace Args

/-- A workspace in the output, with a long name. -/
def longWorkspace : String := "/out/" ++ String.ofList (List.replicate 251 'w')

def nested : Args where
  source := .ofString "/src"
  projectName := some "small"
  workspace := some (.ofString longWorkspace)
  output := some (.ofString "/out")
  python := some (.ofString "/python")

/-- A machine with an empty source tree and an interpreter. -/
def bare : Machine := .small [("python", .file 0 0o755 .empty)]

set_option maxRecDepth 100000 in
theorem nested_begins : (Machine.run .idle nested.begins bare).1 =
      .error (.described ("opening lock file " ++ longWorkspace ++ ".lock")) ∧
    (Machine.run .idle nested.begins bare).2.disk.look [Bytes.ofString "out"] = some (.dir []) := by
  decide +kernel

/-- With a lock file of too long a name, a session is rejected as any other. -/
theorem nested_leaves : Outside.idle.AnswersIdly ∧
    (Machine.run .idle nested.begins bare).1 =
      .error (.described ("opening lock file " ++ longWorkspace ++ ".lock")) ∧
    nested.execute.Ends (answer .idle) bare fun r es m' =>
      r = .error (.described ("opening lock file " ++ longWorkspace ++ ".lock")) ∧
      (∀ asked ∈ es, asked.1.Aloof) ∧
      (m'.disk = bare.disk ∨ ∃ s python, (Machine.run .idle nested.settles bare).1 = .ok (s, python) ∧
        bare.disk.LockMade (RunLock.pathFor s.workspace) m'.disk) :=
  ⟨Outside.idle_answersIdly, nested_begins.1,
    (rejection_leaves nested Outside.idle_answersIdly nested_begins.1).mono
      fun _ _ _ ⟨failed, aloof, left⟩ => ⟨failed, aloof,
        left.imp_right fun ⟨_, s, python, settled, made, _⟩ => ⟨s, python, settled, made⟩⟩⟩

set_option maxRecDepth 100000 in
/-- All checks before the lock have passed and the lock is refused, but there is an output now. -/
theorem nested_makes_output : Outside.idle.AnswersIdly ∧
    (Machine.run .idle nested.settles bare).1 =
      .ok ({ Settings.small longWorkspace "/out" with python := .ofString "/python" },
        .ofString "/python") ∧
    (Machine.run .idle nested.begins bare).1 =
      .error (.described ("opening lock file " ++ longWorkspace ++ ".lock")) ∧
    bare.disk.look [Bytes.ofString "out"] = none ∧
    (Machine.run .idle nested.execute bare).2.disk.look [Bytes.ofString "out"] = some (.dir []) := by
  refine ⟨Outside.idle_answersIdly, by decide +kernel, nested_begins.1, by decide +kernel, ?_⟩
  have left : (Machine.run .idle nested.execute bare).2 =
      (Machine.run .idle nested.begins bare).2 := (execute_of_rejected nested_begins.1).2.2
  rw [left]
  exact nested_begins.2

end Args

end LayerPack
