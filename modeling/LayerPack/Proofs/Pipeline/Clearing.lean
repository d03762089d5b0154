import LayerPack.Proofs.Pipeline.Lockstep
import LayerPack.Proofs.Pipeline.Renewal

/-! The first stage on two disks that differ at most at and below the workspace and at an old archive.
What they differ in is removed, each disk in its own way, and the same directories are made on both.
If this succeeds on the first disk, and the paths still lead where they have led, then it succeeds on
the second one, and the disks are alike when it is done. -/
namespace LayerPack

open Program Machine

variable {k : Kinship} {asked : Call → Prop} {o : Outside} {s : Settings} {m m' : Machine}
  {d d' gone full e : Disk} {out : List Name} {last : Name} {deadline deadline' : Option Nat}

theorem Machine.Kin.mono {S S' : Disk → Disk → Prop} (h : Kin k S m m') (hS : ∀ g g', S g g' → S' g g') :
    Kin k S' m m' := { h with disk := hS _ _ h.disk }

theorem Program.Does.work_bind {α β : Type} {w : Work α} {f : α → Work β} {a : α} {r : Except Stop β}
    {deeds deeds' : List Deed} (h : (w deadline).Does o k m (.ok a) deeds d)
    (hf : ∀ n, Lapsed k m n → n.disk = d → (f a deadline).Does o k n r deeds' d') :
    ((w >>= f) deadline).Does o k m r (deeds ++ deeds') d' := Does.bind h hf

/-- What follows work that both have done. -/
theorem Work.abreast_next {α β γ δ σ : Type} {answer : Answers σ} {fair : Request × σ → Prop}
    {R : σ → σ → Prop} {w : Work α} {w' : Work β} {f : α → Work γ} {f' : β → Work δ}
    {M : α → σ → β → σ → Prop} {Q : Except Stop γ → σ → Except Stop δ → σ → Prop}
    (h : (w deadline).Abreast answer fair R (w' deadline') fun r t r' t' =>
      ∃ a b, r = .ok a ∧ r' = .ok b ∧ M a t b t')
    (hf : ∀ a b, (f a deadline).Abreast answer fair (fun t t' => M a t b t') (f' b deadline') Q) :
    ((w >>= f) deadline).Abreast answer fair R ((w' >>= f') deadline') Q := by
  refine Abreast.bind h fun r r' => ?_
  rintro t t' ⟨a, b, rfl, rfl, hM⟩
  exact hf a b t t' hM

section

variable (steady : o.Steady k asked)

include steady

/-- Without failures, whoever is asked is honest. -/
theorem Outside.Steady.honest : o.Honest := fun n h => by
  rw [steady.sound n] at h
  cases h

/-- What is done in time leaves time. -/
theorem Work.early_of_await {α : Type} {p : Program α} (timed : ∀ limit ∈ deadline, k.timed)
    {Q : Except Stop α → List (Request × Machine) → Machine → Prop}
    (h : (Work.await p deadline).Ends (answer o) m Q) (hQ : ∀ es n, ¬ Q (.error .late) es n) :
    m.Early k deadline := by
  have found : (isLate deadline).Finds o k m _ := finds_isLate steady timed
  obtain ⟨later, late, -⟩ := (Program.ends_bind.mp h).and found
  rw [late] at later
  intro limit hl
  refine ⟨timed limit hl, ?_⟩
  obtain rfl : deadline = some limit := hl
  rw [Option.any_some] at later
  by_contra passed
  rw [decide_eq_true (Nat.le_of_not_lt passed)] at later
  exact hQ _ _ later

omit steady in
theorem Machine.Early.lapse {n : Machine} (h : m.Early k deadline) (lapsed : Lapsed k m n) :
    n.Early k deadline := fun limit hl => by
  obtain ⟨timed, before⟩ := h limit hl
  exact ⟨timed, lapsed.clock timed ▸ before⟩

omit steady in
/-- If there is time on one machine, there is on its kin. -/
theorem Machine.Early.beside {S : Disk → Disk → Prop} (h : m.Early k deadline) (kin : Kin k S m m')
    (due : k.Due deadline deadline') : m'.Early k deadline' := by
  cases due with
  | never => exact fun _ h => by cases h
  | @«at» time time' timed lead =>
    rintro _ ⟨⟩
    have := kin.clock timed
    have := (h time rfl).2
    exact ⟨timed, by omega⟩

/-- The same is removed on both disks, or nothing is there on either of them. -/
theorem Files.abreast_removal (renewed : Disk.Renewed s.workspace s.output d gone full e)
    (laid : s.Laid) (straight : Disk.Undiverted s.workspace s.output d e)
    (stale : Disk.Written s.output (out ++ [last])) (alike : Disk.AlikeBut s.workspace s.output d d') :
    (removePath s.workspace).Abreast (answer o) Drawn (Kin k fun g g' => g = d ∧ g' = d')
      (removePath s.workspace) fun r n r' n' => (∃ x y, r = .ok x ∧ r' = .ok y) ∧
        Kin k (fun g g' => d.Left (d.Off s.workspace) g ∧ d'.Left (d.Off s.workspace) g' ∧
          g.root.WellFormed ∧ g'.root.WellFormed) n n' := by
  have written : Disk.Written s.workspace s.workspace.names := ⟨laid.written.1, laid.workspace.proper⟩
  have absolute := laid.workspace.absolute
  refine Does.abreast fun m m' hm => ?_
  obtain ⟨rfl, rfl⟩ := hm.disk
  rcases renewed.removal written straight stale alike with
    ⟨parent, name, named, named'⟩ | ⟨unseated, missing, missing'⟩
  · obtain ⟨x, g, does, without⟩ :=
      does_removePath steady alike.form (named.absolute absolute m.cwd)
    obtain ⟨y, g', does', without'⟩ :=
      does_removePath steady alike.form' (named'.absolute absolute m'.cwd)
    have seat := Disk.seat_of_lookupParent named.way
    refine ⟨_, _, _, _, _, does, does', fun n n' hn => ⟨⟨x, y, rfl, rfl⟩, hn.mono ?_⟩⟩
    rintro _ _ ⟨rfl, rfl⟩
    exact ⟨without.left seat, without'.left seat, without.form, without'.form⟩
  · have seen (m : Machine) (h : m.disk.stat [] false s.workspace = .error .noEntry) :
        m.disk.stat m.cwd false s.workspace = .error .noEntry := by
      rw [Disk.stat, Disk.resolve_absolute absolute m.cwd []]
      exact h
    refine ⟨_, _, _, _, _, finds_removePath steady (seen m missing),
      finds_removePath steady (seen m' missing'), fun n n' hn => ⟨⟨_, _, rfl, rfl⟩, hn.mono ?_⟩⟩
    rintro _ _ ⟨rfl, rfl⟩
    exact ⟨Disk.left_of_unseated unseated, Disk.left_of_unseated unseated, alike.form, alike.form'⟩

namespace Workspace

/-- Whether something has been removed is only logged. -/
theorem abreast_logRemoved {S : Disk → Disk → Prop} (root : Path) (removed removed' : Bool) :
    (logRemoved root removed).Abreast (answer o) Drawn (Kin k S) (logRemoved root removed')
      fun _ n _ n' => Kin k S n n' := by
  have found (removed : Bool) (m : Machine) : (logRemoved root removed).Finds o k m () := by
    cases removed with
    | true => exact finds_log steady _ _
    | false => exact finds_done ()
  exact Finds.abreast fun m m' _ => ⟨(), (), found removed m, found removed' m', fun _ _ h => h⟩

variable {counts : Place → Prop} {plan : Disk}

/-- Where the workspace is planned, it is made in the same way on both disks. -/
theorem abreast_furnish (placed : s.Placed)
    (planned : ∀ p ∈ [(⟨s.workspace⟩ : Workspace).dist, s.tree], ∃ place, plan.LeadsTo p place)
    (removed removed' : Bool) (due : k.Due deadline deadline') :
    (furnish s.workspace (.ok removed) deadline).Abreast (answer o) Drawn
      (Kin k (Disk.Furnished counts plan)) (furnish s.workspace (.ok removed') deadline')
      fun r n r' n' => r = r' ∧ Kin k (Disk.Furnished counts plan) n n' := by
  have made {p : Path} (spells : p.Spells p.names) (hp : ∃ place, plan.LeadsTo p place) :
      (Work.await (Files.makeDirs p)).Agrees (answer o) Drawn (Kin k (Disk.Furnished counts plan))
        k.Due := by
    obtain ⟨place, leads⟩ := hp
    exact (Files.agrees_makeDirs_planned steady spells leads).await (prompt steady)
  have dist := made (placed.inside (⟨s.workspace⟩ : Workspace).dist (by simp)).1 (planned _ (by simp))
  have target := made (placed.inside s.tree (by simp [Settings.tree])).1 (planned _ (by simp))
  have rest : (do
      let made ← Work.await (Files.makeDirs (⟨s.workspace⟩ : Workspace).dist)
      Work.ofExcept (ofSystem s.workspace made)
      let made ← Work.await (Files.makeDirs s.tree)
      Work.ofExcept (ofSystem s.workspace made)
      Work.now (request (.log .debug ("Prepared workspace at " ++ s.workspace.display)))
      return ⟨s.workspace⟩ : Work Workspace).Agrees (answer o) Drawn
        (Kin k (Disk.Furnished counts plan)) k.Due :=
    dist.bind fun _ => (Work.agrees_ofExcept _).bind fun _ => target.bind fun _ =>
      (Work.agrees_ofExcept _).bind fun _ =>
        (Machine.agrees_log steady _ _).now.bind fun _ => Work.agrees_pure _
  have begun : (Work.ofExcept (ofSystem s.workspace (.ok removed)) deadline).Abreast (answer o) Drawn
      (Kin k (Disk.Furnished counts plan)) (Work.ofExcept (ofSystem s.workspace (.ok removed')) deadline')
      fun r n r' n' => ∃ x y, r = .ok x ∧ r' = .ok y ∧ Kin k (Disk.Furnished counts plan) n n' :=
    abreast_done fun _ _ h => ⟨_, _, rfl, rfl, h⟩
  refine Work.abreast_next begun fun x y => ?_
  exact Work.abreast_next ((abreast_logRemoved steady s.workspace x y).now _ _) fun _ _ => rest _ _ due

/-- The workspace is prepared in the same way on both disks if it is planned. -/
theorem abreast_prepare (renewed : Disk.Renewed s.workspace s.output d gone full e) (laid : s.Laid)
    (placed : s.Placed) (straight : Disk.Undiverted s.workspace s.output d e)
    (stale : Disk.Written s.output (out ++ [last])) (alike : Disk.AlikeBut s.workspace s.output d d')
    (parallel : ∀ g g', d.Left (d.Off s.workspace) g → d'.Left (d.Off s.workspace) g' →
      Disk.Parallel counts plan g g')
    (planned : ∀ p ∈ [(⟨s.workspace⟩ : Workspace).dist, s.tree], ∃ place, plan.LeadsTo p place)
    (due : k.Due deadline deadline') :
    (prepare s.workspace deadline).Abreast (answer o) Drawn (Kin k fun g g' => g = d ∧ g' = d')
      (prepare s.workspace deadline') fun r n r' n' => r = r' ∧
        ∀ workspace, r = .ok workspace → Kin k (Disk.Furnished counts plan) n n' := by
  have removed := Files.abreast_removal steady renewed laid straight stale alike
  have late (a b : Except SystemError Bool) : Work.Prompt (answer o) Drawn (fun n n' =>
      (∃ x y, a = .ok x ∧ b = .ok y) ∧ Kin k (fun g g' => d.Left (d.Off s.workspace) g ∧
        d'.Left (d.Off s.workspace) g' ∧ g.root.WellFormed ∧ g'.root.WellFormed) n n') k.Due := by
    intro deadline deadline' due
    rintro n n' ⟨oks, h⟩
    exact (prompt steady deadline deadline' due).mono (fun _ _ _ _ h => ⟨h.1, oks, h.2⟩) n n' h
  rw [prepare_eq]
  refine Abreast.bind (removed.await (prompt steady) late due) fun r r' => ?_
  rintro n n' (⟨rfl, rfl, -⟩ | ⟨_, _, rfl, rfl, ⟨x, y, rfl, rfl⟩, h⟩)
  · exact abreast_done (R := fun _ _ => True) (fun _ _ _ => ⟨rfl, fun _ h => by cases h⟩) n n' trivial
  · refine (abreast_furnish steady placed planned x y due).mono (fun _ _ _ _ h => ⟨h.1, fun _ _ => h.2⟩)
      n n' (h.mono fun g g' => ?_)
    rintro ⟨left, left', form, form'⟩
    exact ⟨parallel g g' left left', form, form'⟩

end Workspace

namespace Pipeline

variable {counts : Place → Prop} {plan : Disk}

theorem agrees_makeDist_planned (placed : s.Placed)
    (planned : s.distInWorkspace = false → ∃ place, plan.LeadsTo s.dist place) :
    (makeDist s).Agrees (answer o) Drawn (Kin k (Disk.Furnished counts plan)) k.Due := by
  unfold makeDist
  split
  · exact Work.agrees_pure ()
  next outside =>
    obtain ⟨place, leads⟩ := planned (by simpa using outside)
    exact ((Files.agrees_makeDirs_planned steady placed.dist leads).await (prompt steady)).bind
      fun _ => Work.agrees_ofExcept _

/-- An old archive that is no directory is dropped, whatever it is. -/
theorem does_removeStaleArchive {output : Path} {parent : Place} (early : m.Early k deadline)
    (wf : m.disk.root.WellFormed) (named : m.disk.lookupParent m.cwd output = .ok (parent, .name last false))
    (noDir : ∀ es, m.disk.get? (parent ++ [last]) ≠ some (.dir es)) : ∃ g,
      (removeStaleArchive output deadline).Does o k m (.ok ()) [] g ∧
        m.disk.Without (parent ++ [last]) g := by
  have seen := Disk.stat_entry named
  have looked : (Work.await (Files.lstat output) deadline).Finds o k m
      (.ok (m.disk.stat m.cwd false output)) :=
    Does.await steady early fun n lapsed disk => by
      have found := finds_stat steady (m := n) false output
      rwa [Finds, lapsed.cwd, disk] at found
  cases hg : m.disk.get? (parent ++ [last]) with
  | none =>
    rw [hg] at seen
    rw [seen] at looked
    exact ⟨m.disk, Finds.work_bind looked fun _ _ _ => finds_done _, Disk.without_of_none wf hg⟩
  | some node =>
    rw [hg] at seen
    rw [seen] at looked
    have other : node.isDir = false := by
      cases node with
      | dir es => exact (noDir es hg).elim
      | file | link => rfl
    have kind : node.stat.kind ≠ .dir := fun h => by cases other.symm.trans (Node.isDir_iff_kind.mpr h)
    obtain ⟨g, hu, without⟩ := Disk.unlink_entry named wf hg other
    have removed (n : Machine) (lapsed : Lapsed k m n) (disk : n.disk = m.disk) :
        (Files.unlink output).Does o k n (.ok ()) [] g := by
      have does := does_unlink steady output (m := n)
      rwa [disk, lapsed.cwd, hu] at does
    refine ⟨g, Does.after looked fun n lapsed disk => ?_, without⟩
    have goesOn : Work.failIf (node.stat.kind = .dir) (.other ("output path " ++ output.display ++
        " is a directory")) = pure () := by
      rw [decide_eq_false kind]
      rfl
    have dropped : (Work.await (Files.unlink output) deadline).Does o k n (.ok (.ok ())) [] g :=
      Does.await steady (early.lapse lapsed) fun n' lapsed' disk' =>
        removed n' (lapsed.trans lapsed') (disk'.trans disk)
    have logged (l : Machine) (disk' : l.disk = g) : (Work.now (request (.log .info
        ("Removed stale archive " ++ output.display))) deadline).Does o k l (.ok ()) [] g := by
      have found := (finds_log steady (m := l) .info
        ("Removed stale archive " ++ output.display)).now deadline
      rwa [Finds, disk'] at found
    dsimp only
    rw [goesOn]
    exact Does.work_bind dropped fun l _ disk' => logged l disk'

theorem agrees_removeStaleArchive (output : Path) :
    (removeStaleArchive output).Agrees (answer o) Drawn (Twin k) k.Due := by
  refine ((Files.agrees_lstat steady output).await (prompt steady)).bind fun r => ?_
  cases r with
  | error e =>
    dsimp only
    split
    · exact Work.agrees_pure ()
    · exact Work.agrees_fail _
  | ok status =>
    exact (Work.agrees_failIf _ _).bind fun _ =>
      ((agrees_unlink steady output).await (prompt steady)).bind fun _ =>
        (Work.agrees_ofExcept _).bind fun _ => Work.agrees_log steady _ _

/-- If an old archive can be dropped on the first disk, it is dropped on both, and they are alike. -/
theorem abreast_removeStaleArchive (plan : Disk) (laid : s.Laid) (stale : Disk.Written s.output (out ++ [last]))
    (straight : ∀ place, d.seat [] s.output = some place → e.seat [] s.output = some place)
    (due : k.Due deadline deadline') :
    (removeStaleArchive s.output deadline).Abreast (answer o) Drawn
      (Foreseen (answer o) (Kin k (Disk.Furnished (d.Off s.output) plan))
        (removeStaleArchive s.output deadline) fun r n => r = .ok () ∧ n.disk = e)
      (removeStaleArchive s.output deadline') fun r n r' n' => r = r' ∧ Twin k n n' := by
  rintro m m' ⟨h, known⟩
  have absolute := laid.output.absolute
  cases hs : d.seat [] s.output with
  | none =>
    have off (q : Place) : d.Off s.output q := fun seat hseat => by cases hs.symm.trans hseat
    exact agrees_removeStaleArchive steady s.output _ _ due m m'
      (h.mono fun g g' h => ⟨fun q => Node.Parallel.same h.parallel q (off q), h.form, h.form'⟩)
  | some place =>
    obtain ⟨drops, succeeds, ends⟩ :=
      (removeStale_drops absolute (Outside.Steady.honest steady) deadline (m := m)).and known
    have dropped : m.disk.Dropped s.output e := ends ▸ drops succeeds
    obtain ⟨parent, rfl, named, named', noDir, noDir'⟩ :=
      h.disk.parallel.seated h.disk.form dropped stale hs (straight _ hs)
    have timed : ∀ limit ∈ deadline, k.timed := by
      cases due with
      | never => exact fun _ h => by cases h
      | «at» timed => exact fun _ _ => timed
    have early : m.Early k deadline :=
      Work.early_of_await steady timed (Work.ends_bind.mp known) fun _ _ h => by cases h.1
    rw [Disk.lookupParent_absolute absolute [] m.cwd] at named
    rw [Disk.lookupParent_absolute absolute [] m'.cwd] at named'
    obtain ⟨g, does, without⟩ := does_removeStaleArchive steady early h.disk.form named noDir
    obtain ⟨g', does', without'⟩ :=
      does_removeStaleArchive steady (early.beside h due) h.disk.form' named' noDir'
    obtain ⟨deeds, hr, hr', kin⟩ := Does.beside h does does'
    refine fun _ => ⟨deeds, hr.trans hr'.symm, kin.mono ?_⟩
    rintro _ _ ⟨rfl, rfl⟩
    exact ⟨h.disk.parallel.alike (without.left hs) (without'.left hs), without.form, without'.form⟩

/-- If the first stage is known to succeed on the first disk, and the paths still lead where they have
led, it succeeds on both, and the disks are alike. -/
theorem abreast_clean (laid : s.Laid) (placed : s.Placed)
    (renewed : Disk.Renewed s.workspace s.output d gone full e)
    (straight : Disk.Undiverted s.workspace s.output d e)
    (dist : s.distInWorkspace = false → ∃ place, e.LeadsTo s.dist place)
    (there : ∀ p ∈ [(⟨s.workspace⟩ : Workspace).dist, s.tree], ∃ place, e.LeadsTo p place)
    (stale : Disk.Written s.output (out ++ [last])) (alike : Disk.AlikeBut s.workspace s.output d d')
    (due : k.Due deadline deadline') :
    (clean s deadline).Abreast (answer o) Drawn
      (Foreseen (answer o) (Kin k fun g g' => g = d ∧ g' = d') (clean s deadline)
        fun r n => (∃ workspace, r = .ok workspace) ∧ n.disk = e)
      (clean s deadline') fun r n r' n' => r = r' ∧ Twin k n n' := by
  obtain ⟨plan, kept, parallel⟩ :=
    renewed.parallel ⟨laid.written.1, laid.workspace.proper⟩ straight stale alike
  have planned {p : Path} (hp : ∃ place, e.LeadsTo p place) : ∃ place, plan.LeadsTo p place :=
    hp.imp fun _ leads => leads.keeps kept
  have prepared := Workspace.abreast_prepare steady renewed laid placed straight stale alike parallel
    (fun p hp => planned (there p hp)) due
  have made : (makeDist s).Agrees (answer o) Drawn (Kin k (Disk.Furnished (d.Off s.output) plan)) k.Due :=
    agrees_makeDist_planned steady placed fun h => planned (dist h)
  have dropped := abreast_removeStaleArchive steady plan laid stale straight.staleSeated due
  have succeeds {r : Except Stop Workspace} {n : Machine} {stop : Stop} (hr : r = .error stop) :
      ¬ ((∃ workspace, r = .ok workspace) ∧ n.disk = e) := by
    rintro ⟨⟨_, h⟩, -⟩
    cases hr.symm.trans h
  refine Work.abreast_bind (M := fun workspace n workspace' n' => workspace = workspace' ∧
    Kin k (Disk.Furnished (d.Off s.output) plan) n n') (fun _ _ => succeeds rfl)
    (prepared.unforeseen.mono ?_) fun workspace workspace' => ?_
  · rintro r n r' n' ⟨rfl, h⟩ workspace rfl
    exact ⟨workspace, rfl, rfl, h workspace rfl⟩
  refine Work.abreast_bind (M := fun _ n _ n' => workspace = workspace' ∧
    Kin k (Disk.Furnished (d.Off s.output) plan) n n') (fun _ _ => succeeds rfl)
    (Abreast.unforeseen ?_) fun _ _ => ?_
  · rintro n n' ⟨rfl, h⟩
    refine (made deadline deadline' due).mono ?_ n n' h
    rintro r n r' n' ⟨rfl, h⟩ a rfl
    exact ⟨a, rfl, rfl, h⟩
  rintro n n' ⟨⟨rfl, h⟩, known⟩
  have known := Work.ends_bind.mp known
  refine Abreast.bind (Q := fun r n r' n' => r = r' ∧ Twin k n n') dropped (fun r r' => ?_) n n'
    ⟨h, known.mono ?_⟩
  · rintro n n' ⟨rfl, h⟩
    cases r <;> exact abreast_done (fun _ _ h => ⟨rfl, h⟩) n n' h
  · rintro (stop | _) es n ends
    · exact (succeeds rfl ends).elim
    · exact ⟨rfl, ends.2⟩

end Pipeline

end

end LayerPack
