import LayerPack.Proofs.Disk.Below
import LayerPack.Proofs.Disk.Filed
import LayerPack.Proofs.Lock.Exclusion
import LayerPack.Proofs.Workspace.Reset

/-! The lock file and the workspace. The lock file stands in the directory of the workspace, under a name of
its own, so what removes the workspace leaves it alone wherever links lead, and workspaces that are written
differently have different lock files as long as their names are text. -/
namespace LayerPack

open Program Machine

variable {o : Outside} {m m' : Machine} {s s' : Settings} {place : Place} {up : List Name} {name : Name}

namespace RunLock

/-- The lock file of a path that is written by its names is written by the same names but the last. -/
theorem pathFor_ofNames (h : ∀ n ∈ up ++ [name], ProperName n) :
    pathFor (.ofNames (up ++ [name])) = .ofNames (up ++ [lockName name]) := by
  have named : (Path.ofNames (up ++ [name])).fileName? = some name := (Path.Spells.ofNames h).fileName?
  unfold pathFor
  rw [named]
  exact Path.withFileName_ofNames h (properName_lockName (h name (by simp)))

theorem proper_lockName (h : ∀ n ∈ up ++ [name], ProperName n) :
    ∀ n ∈ up ++ [lockName name], ProperName n := by
  intro n hn
  rcases List.mem_append.mp hn with hn | hn
  · exact h n (List.mem_append_left _ hn)
  · obtain rfl := List.mem_singleton.mp hn
    exact properName_lockName (h name (by simp))

/-- Names that are text are told apart by the names of their lock files. -/
theorem lockName_injective {name other : Name} (text : (Bytes.toText? name).isSome)
    (text' : (Bytes.toText? other).isSome) (h : lockName name = lockName other) : name = other := by
  obtain ⟨shown, hs⟩ := Option.isSome_iff_exists.mp text
  obtain ⟨shown', hs'⟩ := Option.isSome_iff_exists.mp text'
  obtain rfl := Bytes.ofString_of_toText? hs
  obtain rfl := Bytes.ofString_of_toText? hs'
  have same := Bytes.ofString_injective h
  rw [Bytes.display_ofString, Bytes.display_ofString] at same
  rw [String.append_left_inj] at same
  rw [same]

/-- Whatever the path of the workspace goes through, its lock file is the entry beside it. -/
theorem not_wiped_of_lock (h : ∀ n ∈ up ++ [name], ProperName n)
    (locked : m.Wiped (.ofNames (up ++ [lockName name])) place) :
    ¬ m.Wiped (.ofNames (up ++ [name])) place := by
  rintro ⟨seat, hseat, below⟩
  obtain ⟨seat', hseat', below'⟩ := locked
  obtain ⟨parent, last, slashed, hp, rfl⟩ := Disk.lookupParent_of_seat hseat
  obtain ⟨parent', last', slashed', hp', rfl⟩ := Disk.lookupParent_of_seat hseat'
  have proper := proper_lockName h
  cases Disk.lookupParent_concat h hp
  obtain ⟨-, beside⟩ := Disk.lookupParent_beside (proper_lockName h) h h hp hp
  cases beside _ hp'
  exact not_prefix_beside (lockName_ne name).symm parent
    (List.prefix_of_prefix_length_le below below' (by simp))

/-- The lock file stands beside the workspace: in the same directory, and neither of them is the other or
lies below it. -/
structure Beside (lock workspace : Path) : Prop where
  parent : ∃ up, workspace.parent? = some up ∧ lock.parent? = some up
  ne : lock ≠ workspace
  notBelow : lock.startsWith workspace = false
  notAbove : workspace.startsWith lock = false

theorem beside_pathFor (h : ∀ n ∈ up ++ [name], ProperName n) :
    Beside (pathFor (.ofNames (up ++ [name]))) (.ofNames (up ++ [name])) := by
  have proper := proper_lockName h
  have spells := Path.Spells.ofNames h
  have spells' := Path.Spells.ofNames proper
  have apart := not_prefix_beside (lockName_ne name).symm up
  have apart' := not_prefix_beside (lockName_ne name) up
  rw [pathFor_ofNames h]
  refine ⟨⟨_, Path.parent?_ofNames h, Path.parent?_ofNames proper⟩, fun same => apart ?_, ?_, ?_⟩
  · have names : up ++ [name] = up ++ [lockName name] := by
      rw [← spells.names_eq, ← spells'.names_eq, same]
    exact names ▸ List.prefix_rfl
  · exact Bool.eq_false_iff.mpr fun below => apart ((spells'.startsWith spells).mp below)
  · exact Bool.eq_false_iff.mpr fun below => apart' ((spells.startsWith spells').mp below)

end RunLock

namespace Settings

/-- The workspace of accepted settings has a last name. -/
theorem Laid.exists_workspace (laid : s.Laid) : ∃ up name,
    s.workspace = .ofNames (up ++ [name]) ∧ ∀ n ∈ up ++ [name], ProperName n := by
  obtain ⟨up, name, split, -⟩ := laid.spells_lock
  exact ⟨up, name, split ▸ laid.written.1, split ▸ laid.workspace.proper⟩

end Settings

namespace RunLock

/-- What stands at the lock file of a workspace, or below that, stays when the workspace is removed. If it is a
link, this says that the link stays. -/
def Outlives (o : Outside) (workspace : Path) : Prop :=
  ∀ m place, m.Wiped (pathFor workspace) place → ¬ m.Wiped workspace place ∧ (m.disk.get? place ≠ none →
    (∀ deadline, (Workspace.prepare workspace deadline).Ends (answer o) m fun _ _ m' =>
      m'.disk.look place = m.disk.look place) ∧
    (Workspace.cleanup ⟨workspace⟩).Ends (answer o) m fun _ _ m' =>
      m'.disk.look place = m.disk.look place)

theorem outlives_pathFor (h : ∀ n ∈ up ++ [name], ProperName n) (o : Outside) :
    Outlives o (.ofNames (up ++ [name])) := by
  intro m place locked
  rw [pathFor_ofNames h] at locked
  have aside := not_wiped_of_lock h locked
  obtain ⟨parts, last, split⟩ := Disk.splitLast_ofNames h (by simp)
  refine ⟨aside, fun there => ⟨fun deadline => ?_, ?_⟩⟩
  · exact (Workspace.prepare_kept split deadline).mono fun _ _ _ kept => kept place there aside
  · exact (Workspace.cleanup_kept split).mono fun _ _ _ kept => kept place there aside

/-- The lock file of an accepted workspace stands beside it. Neither preparing the workspace nor cleaning it up
changes what stands there, wherever links lead. Another accepted workspace has another lock file, if the names
of both are text. -/
theorem pathFor_beside (accepted : s.Accepted) :
    Beside (pathFor s.workspace) s.workspace ∧ (∀ o, Outlives o s.workspace) ∧
    ∀ s' : Settings, s'.Accepted → s'.workspace ≠ s.workspace →
      (∀ w ∈ [s.workspace, s'.workspace], ∀ name ∈ w.fileName?, (Bytes.toText? name).isSome) →
      pathFor s'.workspace ≠ pathFor s.workspace := by
  obtain ⟨up, name, written, proper⟩ := accepted.laid.exists_workspace
  rw [written]
  refine ⟨beside_pathFor proper, outlives_pathFor proper, fun s' accepted' other text same => other ?_⟩
  obtain ⟨up', name', written', proper'⟩ := accepted'.laid.exists_workspace
  rw [written'] at text same ⊢
  have named := (Path.Spells.ofNames proper).fileName?
  have named' := (Path.Spells.ofNames proper').fileName?
  rw [pathFor_ofNames proper, pathFor_ofNames proper'] at same
  have names : up' ++ [lockName name'] = up ++ [lockName name] := by
    rw [← (Path.Spells.ofNames (proper_lockName proper)).names_eq, ← same,
      (Path.Spells.ofNames (proper_lockName proper')).names_eq]
  obtain ⟨rfl, locks⟩ := List.append_inj' names rfl
  rw [lockName_injective (text _ (by simp) name' named') (text _ (by simp) name named)
    (List.singleton_inj.mp locks)]

set_option maxRecDepth 100000 in
/-- The lock file is there before the workspace is prepared and after that. A workspace of the same name as the
lock file has another one. -/
theorem small_lock_outlives :
    let s := Settings.small "/work" "/out.zip"
    let s' := Settings.small "/work.lock" "/out.zip"
    let m := Machine.small [("work", .dir [(Bytes.ofString "old", .dir [])]),
      ("work.lock", .file 1 0o644 .empty)]
    s.Accepted ∧ s'.Accepted ∧ pathFor s.workspace = .ofString "/work.lock" ∧
    m.disk.seat m.cwd (pathFor s.workspace) = some [Bytes.ofString "work.lock"] ∧
    ((Workspace.prepare s.workspace none).Ends (answer (.small [])) m fun r _ m' => r = .ok ⟨s.workspace⟩ ∧
      m'.disk.look [Bytes.ofString "work.lock"] = some (.file 1 0o644 .empty)) ∧
    pathFor s'.workspace ≠ pathFor s.workspace := by
  intro s s' m
  have accepted : s.Accepted := ⟨.small "/work" "/out.zip", .small [], .small [], by decide +kernel⟩
  have accepted' : s'.Accepted := ⟨.small "/work.lock" "/out.zip", .small [], .small [], by decide +kernel⟩
  have seat : m.disk.seat m.cwd (pathFor s.workspace) = some [Bytes.ofString "work.lock"] := by
    decide +kernel
  have prepared : (Workspace.prepare s.workspace none).Ends (answer (.small [])) m fun r _ _ =>
      r = .ok ⟨s.workspace⟩ := by
    unfold Ends
    decide +kernel
  obtain ⟨-, outlives, apart⟩ := pathFor_beside accepted
  obtain ⟨-, stays⟩ := outlives (.small []) m _ ⟨_, seat, List.prefix_rfl⟩
  have there : m.disk.look [Bytes.ofString "work.lock"] = some (.file 1 0o644 .empty) := by
    decide +kernel
  refine ⟨accepted, accepted', by decide +kernel, seat, (prepared.and ((stays ?_).1 none)).mono ?_,
    apart s' accepted' (by decide +kernel) (by decide +kernel)⟩
  · exact fun none => by cases there.symm.trans (Node.look_eq_none.mpr none)
  · exact fun _ _ _ ⟨made, same⟩ => ⟨made, same.trans there⟩

end RunLock

end LayerPack
