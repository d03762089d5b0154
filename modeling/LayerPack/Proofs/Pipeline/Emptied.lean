import LayerPack.Proofs.Disk.Bare
import LayerPack.Proofs.Pipeline.Leftovers
import LayerPack.Proofs.Pipeline.Stages

/-! The tree of the archive before anything is put into it. When the old workspace has been removed, its
path leads nowhere; the directories that are made then hold no files, and the tree is one of them. It
stays so while the first stage goes on, wherever the directory of wheels and the old archive are. -/
namespace LayerPack

open Program Machine

/-! ### Where the making of directories leads to

A directory that has been made with those above it is reached by its path. A path that leads to no files
does so still when directories are made along it, and when any directories are made once it leads
somewhere. -/

section

variable {o : Outside} {m : Machine} {p up : Path} {names : List Name}

namespace Files

theorem isDir_leads (hp : p.isAbsolute) : (isDir p).Ends (answer o) m fun there _ m' =>
    there = true → ∃ place, m'.disk.LeadsTo p place := by
  have same : Same m (answer o (.stat true p) m).2 := same_quiet (q := .stat true p) trivial o m
  refine Ends.bind (p := stat p) (M := fun r _ m₁ => r = (answer o (.stat true p) m).1 ∧ Same m m₁)
    ⟨rfl, same⟩ ?_
  rintro (e | status) _ m₁ ⟨hr, same⟩
  · exact fun h => by cases h
  intro h
  obtain ⟨place, node, found, hnode⟩ := Disk.stat_ok (stat_ok hr.symm)
  have hdir : status.kind = .dir := of_decide_eq_true h
  rw [← same.disk] at found
  subst hnode
  cases node with
  | dir es => exact ⟨place, Disk.leadsTo_of_resolve hp found⟩
  | file | link => cases hdir

theorem mkdir_leads (hp : p.isAbsolute) : (mkdir p).Ends (answer o) m fun r _ m' =>
    r = .ok () → ∃ place, m'.disk.LeadsTo p place := by
  intro h
  rcases changed_mkdir o m p with ⟨-, hop, -⟩ | ⟨⟨e, he⟩, -⟩
  · exact Disk.leadsTo_mkdir hp hop
  · cases he.symm.trans h

theorem makeDir_leads (hp : p.isAbsolute) : (makeDir p).Ends (answer o) m fun r _ m' =>
    r = .ok () → ∃ place, m'.disk.LeadsTo p place := by
  refine Ends.bind (mkdir_leads hp) ?_
  rintro (e | ⟨⟩) es m₁ made
  · refine Ends.bind (isDir_leads hp) fun there _ m₂ leads => ?_
    cases there with
    | false => exact fun h => by cases h
    | true => exact fun _ => leads rfl
  · exact made

/-- What has been made is reached. -/
theorem makeDirs_leads (hp : p.isAbsolute) : (makeDirs p).Ends (answer o) m fun r _ m' =>
    r = .ok () → ∃ place, m'.disk.LeadsTo p place := by
  have nonempty : p.isEmpty = false := by
    obtain ⟨rest, hb⟩ := Path.eq_slash_cons hp
    simp [Path.isEmpty, hb]
  unfold makeDirs
  rw [makeDirsWithin, nonempty]
  refine Ends.bind (mkdir_leads hp) ?_
  rintro (e | ⟨⟩) es m₁ made
  case ok => exact made
  dsimp only
  split
  · split
    next => exact fun h => by cases h
    next up =>
      -- How the directories above have been made does not matter.
      refine Ends.bind (M := fun _ _ _ => True) trivial fun r _ m₂ _ => ?_
      cases r with
      | error e => exact fun h => by cases h
      | ok => exact makeDir_leads hp
  · refine Ends.bind (isDir_leads hp) fun there _ m₂ leads => ?_
    cases there with
    | false => exact fun h => by cases h
    | true => exact fun _ => leads rfl

end Files

namespace Machine

/-- Directories are made along a path that leads to no files. -/
theorem bare_makes {q : Request} (h : q.Makes up) (spells : up.Spells names)
    (proper : ∀ part ∈ p.parts, ProperName part) (along : up.parts <+: p.parts ∨ p.parts <+: up.parts)
    (bare : m.disk.Bare p) : (answer o q m).2.disk.Bare p := by
  rcases h with h | ⟨made, above, rfl⟩
  · rw [(same_quiet h o m).disk]
    exact bare
  obtain ⟨front, -, hm⟩ := above.spells spells
  have along : made.parts <+: p.parts ∨ p.parts <+: made.parts := by
    have before := Disk.parts_of_above above
    rcases along with h | h
    · exact .inl (before.trans h)
    · exact List.prefix_or_prefix_of_prefix before h
  rcases changed_mkdir o m made with ⟨-, hop, -⟩ | ⟨-, same⟩
  · exact bare.mkdir hm.absolute proper along hop
  · rw [same.disk]
    exact bare

/-- Directories are made when a path leads to a directory and to no files. -/
theorem bare_grows {q : Request} (h : q.Makes up)
    (bare : m.disk.Bare p ∧ ∃ place, m.disk.LeadsTo p place) :
    (answer o q m).2.disk.Bare p ∧ ∃ place, (answer o q m).2.disk.LeadsTo p place := by
  obtain ⟨bare, place, there⟩ := bare
  refine ⟨?_, place, there.keeps (grown_makes h o m).1.keepsWays⟩
  rcases h with h | ⟨made, -, rfl⟩
  · rw [(same_quiet h o m).disk]
    exact bare
  · rcases changed_mkdir o m made with ⟨-, hop, -⟩ | ⟨-, same⟩
    · exact bare.grows there hop
    · rw [same.disk]
      exact bare

end Machine

end

/-! ### The tree of the archive -/

variable {s : Settings} {o : Outside} {m m' : Machine}

/-- A program that asks nobody else leaves a well-formed disk well formed. -/
theorem Program.Only.wellFormed {α : Type} {K : Request → Prop} {program : Program α}
    (hp : program.Only K) (alone : ∀ q, K q → q.isForeign = false) (wf : m.disk.root.WellFormed) :
    program.Ends (answer o) m fun _ _ m' => m'.disk.root.WellFormed :=
  hp.run_inv (I := fun m : Machine => m.disk.root.WellFormed)
    (fun q _ hq => wellFormed_step q fun h => by cases (alone q hq).symm.trans h) wf

namespace Request

variable {q : Request} {p : Path}

theorem Quiet.alone (h : q.Quiet) : q.isForeign = false := by cases q <;> first | rfl | cases h

theorem Makes.alone (h : q.Makes p) : q.isForeign = false := by
  rcases h with h | ⟨up, -, rfl⟩
  · exact h.alone
  · rfl

theorem Removes.alone (h : q.Removes p) : q.isForeign = false := by
  rcases h with h | rfl | rfl
  · exact h.alone
  · rfl
  · rfl

/-- The first stage asks nobody else. -/
theorem Cleans.alone (h : q.Cleans s) : q.isForeign = false := by
  rcases h with h | h | h | ⟨-, h⟩ | rfl
  · exact h.alone
  · exact h.alone
  · exact h.alone
  · exact h.alone
  · rfl

end Request

/-- What a path names has been removed. The path finds nothing, nothing is left below the place that it
has named, and nothing else has changed. -/
structure Machine.Vacated (p : Path) (m m' : Machine) : Prop where
  missing : m'.Missing p
  cleared : m.disk.ClearedAt [] p m'.disk
  emptied : ∀ seat, m.disk.seat [] p = some seat →
    ∀ name rest, m'.disk.get? (seat ++ name :: rest) = none
  ways : m'.disk.root.KeepsWays m.disk.root
  form : m'.disk.root.WellFormed

theorem Machine.Vacated.same {p : Path} {m₁ m₂ : Machine} (h : Vacated p m₁ m₂) (hm : Same m m₁)
    (hm' : Same m₂ m') : Vacated p m m' where
  missing := hm'.missing h.missing
  cleared := by
    rw [← hm.disk, hm'.disk]
    exact h.cleared
  emptied := by
    rw [← hm.disk, hm'.disk]
    exact h.emptied
  ways := by
    rw [← hm.disk, hm'.disk]
    exact h.ways
  form := hm'.disk ▸ h.form

namespace Files

variable {p : Path} {parts : List Bytes} {name : Name}

theorem removePath_vacates (honest : o.Honest) (wf : m.disk.root.WellFormed) (hp : p.isAbsolute)
    (hs : Disk.splitLast p.bytes = (parts, .name name false)) :
    (removePath p).Ends (answer o) m fun r _ m' => (∃ removed, r = .ok removed) → Vacated p m m' := by
  have alone (q : Request) (h : q.Removes p) := h.alone
  refine ((removePath_clears hs).and ((removePath_removes honest).and
    ((only_removePath _).wellFormed alone wf))).mono ?_
  rintro r es m' ⟨cleared, removes, form⟩ done
  obtain ⟨removed, cwd⟩ := removes (.inl done)
  refine ⟨fun found => cwd ▸ removed.notFound wf found, fun q off => cleared q fun seat hseat => ?_,
    fun seat hseat => ?_, removed.keepsWays wf, form⟩
  · exact off seat ((Disk.seat_absolute hp _).trans hseat)
  · exact removed.empties wf hs ((Disk.seat_absolute hp _).symm.trans hseat)

end Files

namespace Settings.Laid

variable (laid : s.Laid)
include laid

theorem workspace_parts : s.workspace.parts = s.workspace.names := by
  rw [laid.written.1, Disk.parts_ofNames laid.workspace.proper, ← laid.written.1]

theorem child_parts {name : Name} (hn : ProperName name) :
    (s.workspace.child name).parts = s.workspace.names ++ [name] := by
  rw [laid.written.1, Path.child_ofNames laid.workspace.proper laid.notRoot hn,
    Disk.parts_ofNames fun n h => ?_, ← laid.written.1]
  exact (List.mem_append.mp h).elim (laid.workspace.proper n) fun h => List.mem_singleton.mp h ▸ hn

theorem tree_parts : s.tree.parts = s.workspace.names ++ [Bytes.ofString "target"] :=
  laid.child_parts Workspace.properName_target

omit laid in
theorem child_start {name : Name} (hn : ProperName name) :
    s.workspace.bytes <+: (s.workspace.child name).bytes := by
  rw [Path.child, Path.join, Path.isAbsolute_name hn, if_neg (by simp)]
  split <;> exact List.prefix_append _ _

theorem child_extends {name : Name} (hn : ProperName name) :
    Disk.Extends s.workspace (s.workspace.child name) [name] :=
  ⟨child_start hn, [name], (laid.child_parts hn).trans (laid.workspace_parts ▸ rfl),
    Path.componentsOf_names (by simpa using hn)⟩

/-- If no files are in the workspace, none are in the tree. -/
theorem bare_tree {d : Disk} (bare : d.Bare s.workspace) : d.Bare s.tree :=
  bare.child laid.workspace.absolute (child_start Workspace.properName_target)
    (laid.tree_parts.trans (laid.workspace_parts ▸ rfl)) (by decide) Workspace.properName_target

end Settings.Laid

namespace Workspace

/-- A workspace in whose place nothing was is made without files. -/
theorem furnish_keeps_bare (laid : s.Laid) (bare : m.disk.Bare s.workspace) (removed : Bool)
    (deadline : Option Nat) :
    (furnish s.workspace (.ok removed) deadline).Ends (answer o) m fun _ _ m' =>
      m'.disk.Bare s.workspace := by
  refine furnish_inv (I := fun m : Machine => m.disk.Bare s.workspace) bare ?_ _ deadline
  intro child hc q m h bare
  have hn := properName_child hc
  refine bare_makes h (laid.workspace.child hn) ?_ (.inr ?_) bare
  · rw [laid.workspace_parts]
    exact laid.workspace.proper
  · rw [laid.workspace_parts, laid.child_parts hn]
    exact List.prefix_append _ _

/-- The directories of a workspace that has been made are there. -/
theorem furnish_leads (placed : s.Placed) (removed : Bool) (deadline : Option Nat) :
    (furnish s.workspace (.ok removed) deadline).Ends (answer o) m fun r _ m' =>
      ∀ workspace, r = .ok workspace →
        ∀ p ∈ [(⟨s.workspace⟩ : Workspace).dist, s.tree], ∃ place, m'.disk.LeadsTo p place := by
  have dist := (placed.inside (⟨s.workspace⟩ : Workspace).dist (by simp)).1
  have target := (placed.inside s.tree (by simp [Settings.tree])).1
  refine Work.ends_bind.mpr (Ends.mono (Q := fun _ _ _ => True) trivial ?_)
  rintro (stop | _) _ m₁ -
  · exact fun _ h => by cases h
  refine Work.ends_bind.mpr (Ends.mono (Q := fun _ _ _ => True) trivial ?_)
  rintro (stop | _) _ m₁ -
  · exact fun _ h => by cases h
  refine Work.ends_bind.mpr (ends_await (fun _ _ _ _ h => by cases h) fun m₂ _ => ?_)
  refine (Files.makeDirs_leads dist.absolute).mono ?_
  rintro made _ m₃ first es m₄ - same
  refine ⟨?_, fun _ h => by cases h⟩
  refine Work.ends_bind.mpr (Work.ends_ofExcept.mpr ?_)
  cases made with
  | error e => exact fun _ h => by cases h
  | ok =>
  rw [← same.disk] at first
  refine Work.ends_bind.mpr (ends_await (fun _ _ _ _ h => by cases h) fun m₅ same' => ?_)
  -- The second directory is made where the first one stays.
  have still : (Files.makeDirs s.tree).Ends (answer o) m₅ fun _ _ m₆ =>
      ∃ place, m₆.disk.LeadsTo (⟨s.workspace⟩ : Workspace).dist place :=
    (Files.only_makeDirs _).run_inv
      (I := fun m : Machine => ∃ place, m.disk.LeadsTo (⟨s.workspace⟩ : Workspace).dist place)
      (fun _ m hq ⟨place, h⟩ => ⟨place, h.keeps (grown_makes hq o m).1.keepsWays⟩)
      (same'.disk ▸ first rfl)
  refine ((Files.makeDirs_leads target.absolute).and still).mono ?_
  rintro made _ m₆ ⟨second, first⟩ es m₇ - same''
  refine ⟨?_, fun _ h => by cases h⟩
  refine Work.ends_bind.mpr (Work.ends_ofExcept.mpr ?_)
  cases made with
  | error e => exact fun _ h => by cases h
  | ok =>
    intro _ _ p hp
    change ∃ place, m₇.disk.LeadsTo p place
    rw [same''.disk]
    simp only [List.mem_cons, List.not_mem_nil, or_false] at hp
    rcases hp with rfl | rfl
    · exact first
    · exact second rfl

theorem furnish_bare (laid : s.Laid) (placed : s.Placed) (bare : m.disk.Bare s.workspace)
    (removed : Bool) (deadline : Option Nat) :
    (furnish s.workspace (.ok removed) deadline).Ends (answer o) m fun r _ m' =>
      ∀ workspace, r = .ok workspace → m'.disk.Bare s.tree ∧ ∃ place, m'.disk.LeadsTo s.tree place :=
  ((furnish_keeps_bare laid bare removed deadline).and
    (furnish_leads placed removed deadline)).mono fun _ _ _ ⟨bare, leads⟩ w h =>
      ⟨laid.bare_tree bare, leads w h s.tree (by simp)⟩

/-- Where the removal of the old workspace succeeds, its place is vacated. -/
theorem prepare_ends (laid : s.Laid) (honest : o.Honest) (wf : m.disk.root.WellFormed)
    {deadline : Option Nat} {P : Workspace → Machine → Prop}
    (furnished : ∀ m₁ removed, Vacated s.workspace m m₁ →
      (furnish s.workspace (.ok removed) deadline).Ends (answer o) m₁ fun r _ m' =>
        ∀ workspace, r = .ok workspace → P workspace m') :
    (prepare s.workspace deadline).Ends (answer o) m fun r _ m' =>
      ∀ workspace, r = .ok workspace → P workspace m' := by
  obtain ⟨parts, name, hs⟩ := Disk.splitLast_ofNames laid.workspace.proper laid.notRoot
  rw [← laid.written.1] at hs
  rw [prepare_eq]
  refine Work.ends_bind.mpr (ends_await (fun _ _ _ _ h => by cases h) fun m₁ same => ?_)
  rw [← same.disk] at wf
  refine (Files.removePath_vacates honest wf laid.workspace.absolute hs).mono fun removed _ m₂ vacated es m₃ _ same' => ?_
  refine ⟨?_, fun _ h => by cases h⟩
  cases removed with
  | error e => exact Work.ends_bind.mpr (Work.ends_ofExcept.mpr fun _ h => by cases h)
  | ok removed => exact furnished m₃ removed ((vacated ⟨removed, rfl⟩).same same same')

theorem prepare_bare (laid : s.Laid) (placed : s.Placed) (honest : o.Honest)
    (wf : m.disk.root.WellFormed) (deadline : Option Nat) :
    (prepare s.workspace deadline).Ends (answer o) m fun r _ m' =>
      ∀ workspace, r = .ok workspace → m'.disk.Bare s.tree ∧ ∃ place, m'.disk.LeadsTo s.tree place :=
  prepare_ends laid honest wf fun _ removed vacated =>
    furnish_bare laid placed (Disk.bare_of_missing laid.workspace.absolute vacated.missing) removed deadline

end Workspace

namespace Pipeline

/-- After the first stage the tree holds no files. -/
theorem clean_bare (laid : s.Laid) (placed : s.Placed) (honest : o.Honest)
    (wf : m.disk.root.WellFormed) (deadline : Option Nat) :
    (clean s deadline).Ends (answer o) m fun r _ m' =>
      ∀ workspace, r = .ok workspace → m'.disk.root.WellFormed ∧ m'.disk.Bare s.tree := by
  refine Work.ends_bind.mpr (((Workspace.prepare_bare laid placed honest wf deadline).and
    ((only_prepare s deadline).wellFormed (fun _ h => h.alone) wf)).mono ?_)
  rintro (stop | workspace) _ m₁ ⟨prepared, wf₁⟩
  · exact fun _ h => by cases h
  have made : (makeDist s deadline).Ends (answer o) m₁ fun _ _ m₂ =>
      m₂.disk.Bare s.tree ∧ ∃ place, m₂.disk.LeadsTo s.tree place :=
    (only_makeDist s (fun _ _ h => h) deadline).run_inv
      (I := fun m : Machine => m.disk.Bare s.tree ∧ ∃ place, m.disk.LeadsTo s.tree place)
      (fun _ _ hq => bare_grows hq) (prepared workspace rfl)
  have form := (makeDist_cleans s deadline).wellFormed (o := o) (fun _ h => h.alone) wf₁
  refine Work.ends_bind.mpr ((made.and form).mono ?_)
  rintro (stop | _) _ m₂ ⟨⟨bare, -⟩, wf₂⟩
  · exact fun _ h => by cases h
  have removed : (removeStaleArchive s.output deadline).Ends (answer o) m₂ fun _ _ m₃ =>
      m₃.disk.root.WellFormed ∧ m₃.disk.Bare s.tree := by
    refine (only_removeStaleArchive s.output deadline).run_inv
      (I := fun m : Machine => m.disk.root.WellFormed ∧ m.disk.Bare s.tree) ?_ ⟨wf₂, bare⟩
    rintro q m (h | rfl) ⟨wf, bare⟩
    · have same := same_quiet h o m
      rw [same.disk]
      exact ⟨wf, bare⟩
    · refine ⟨wellFormed_step _ (fun h => by cases h) wf, ?_⟩
      rcases changed_unlink o m s.output with ⟨-, hop, -⟩ | ⟨-, same⟩
      · exact bare.unlink wf hop
      · rw [same.disk]
        exact bare
  refine Work.ends_bind.mpr (removed.mono ?_)
  rintro (stop | _) _ m₃ done
  · exact fun _ h => by cases h
  · exact fun _ _ => done

end Pipeline

end LayerPack
