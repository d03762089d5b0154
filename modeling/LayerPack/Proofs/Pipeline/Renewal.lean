import LayerPack.Proofs.Disk.Stop
import LayerPack.Proofs.Host.Agreement
import LayerPack.Proofs.Host.Directories
import LayerPack.Proofs.Pipeline.Emptied
import LayerPack.Proofs.Workspace.Reset

/-! What the first stage does to a disk: the old workspace is removed, directories are made, the first of
them where the path of the workspace has stopped, and an old archive is dropped. -/
namespace LayerPack

open Program Machine

/-! ### The removal of what a path names

Whatever it is, it is gone afterwards with all that was below it, as long as the path does not go
through it; nothing else has changed. -/

section

variable {k : Kinship} {asked : Call → Prop} {o : Outside} {m : Machine} {p : Path} {parent : Place}
  {name : Name}

namespace Files

/-- Where nothing is found, nothing is removed, also if this is not told. -/
theorem removePath_same (missing : m.disk.stat m.cwd false p = .error .noEntry) :
    (removePath p).Ends (answer o) m fun _ _ n => Same m n := by
  refine Ends.bind (p := lstat p) (M := fun r _ n => Same m n ∧ ∃ e, r = .error e)
    ⟨same_quiet (q := .stat false p) trivial o m, ?_⟩ ?_
  · change ∃ e, (answer o (.stat false p) m).1 = .error e
    cases hr : (answer o (.stat false p) m).1 with
    | error e => exact ⟨e, rfl⟩
    | ok status => cases missing.symm.trans (stat_ok hr)
  · rintro _ _ n ⟨same, e, rfl⟩
    exact same

/-- Where nothing is found, nothing is removed. -/
theorem finds_removePath (steady : o.Steady k asked)
    (missing : m.disk.stat m.cwd false p = .error .noEntry) : (removePath p).Finds o k m (.ok false) := by
  refine Finds.bind (finds_stat steady false p) fun n _ _ => ?_
  rw [missing]
  exact finds_done _

theorem does_removePath (steady : o.Steady k asked) (wf : m.disk.root.WellFormed)
    (named : m.disk.Names m.cwd p parent name) : ∃ removed d,
      (removePath p).Does o k m (.ok removed) [] d ∧ m.disk.Without (parent ++ [name]) d := by
  have seen := Disk.stat_entry named.way
  cases hg : m.disk.get? (parent ++ [name]) with
  | none =>
    rw [hg] at seen
    exact ⟨false, m.disk, finds_removePath steady seen, Disk.without_of_none wf hg⟩
  | some node =>
    rw [hg] at seen
    -- The entry is removed as what it is.
    have removed : ∃ d, (∀ n : Machine, n.disk = m.disk → n.cwd = m.cwd →
        (if node.stat.kind = .dir then removeTree p else unlink p).Does o k n (.ok ()) [] d) ∧
          m.disk.Without (parent ++ [name]) d := by
      cases hd : node.isDir with
      | true =>
        obtain ⟨es, rfl⟩ : ∃ es, node = .dir es := by
          cases node with
          | dir es => exact ⟨es, rfl⟩
          | file | link => cases hd
        obtain ⟨d, hr, without⟩ := named.removeTree wf hg
        refine ⟨d, fun n disk cwd => ?_, without⟩
        have does := does_removeTree steady p (m := n)
        rwa [disk, cwd, hr] at does
      | false =>
        obtain ⟨d, hr, without⟩ := Disk.unlink_entry named.way wf hg hd
        have other : node.stat.kind ≠ .dir := fun h => by cases hd.symm.trans (Node.isDir_iff_kind.mpr h)
        refine ⟨d, fun n disk cwd => ?_, without⟩
        have does := does_unlink steady p (m := n)
        rw [disk, cwd, hr] at does
        rwa [if_neg other]
    obtain ⟨d, does, without⟩ := removed
    refine ⟨true, d, Does.after (finds_stat steady false p) fun n lapsed disk => ?_, without⟩
    rw [seen]
    exact Does.bind (does n disk lapsed.cwd) fun n' _ disk' => does_done disk'

end Files

end

/-! ### The first stage -/

variable {s : Settings} {o : Outside} {m : Machine}

/-- What is made anew below a path that leads nowhere begins where the path has stopped. -/
theorem Settings.Laid.refilled (laid : s.Laid) {d d' : Disk} {place : Place}
    (missing : ∀ place, ¬ d.LeadsTo s.workspace place) (leads : d'.LeadsTo s.workspace place)
    {name : Name} (hn : ProperName name) (h : Disk.Refilled (s.workspace.child name) d d') :
    Disk.Refilled s.workspace d d' := by
  obtain ⟨front, first, rest, dest, hparts, stops, made⟩ := h.stops
  refine ⟨?_, h.enlarged, h.form'⟩
  rw [laid.child_parts hn, ← laid.workspace_parts] at hparts
  rcases List.eq_nil_or_concat rest with rfl | ⟨rest, last, rfl⟩
  · -- The path has not stopped before its end.
    obtain ⟨check, -⟩ := Disk.leadsTo_iff.mp leads
    obtain ⟨hfront, -⟩ := List.append_inj' hparts rfl
    exact (missing dest (Disk.leadsTo_iff.mpr ⟨check, hfront ▸ stops.way⟩)).elim
  · rw [List.concat_eq_append, ← List.cons_append, ← List.append_assoc] at hparts
    exact ⟨front, first, rest, dest, (List.append_inj' hparts rfl).1, stops, made⟩

namespace Workspace

theorem furnish_refills (laid : s.Laid) (placed : s.Placed) (missing : m.Missing s.workspace)
    (wf : m.disk.root.WellFormed) (removed : Bool) (deadline : Option Nat) :
    (furnish s.workspace (.ok removed) deadline).Ends (answer o) m fun r _ n =>
      ∀ workspace, r = .ok workspace → Disk.Refilled s.workspace m.disk n.disk := by
  have absolute := laid.workspace.absolute
  let Within (p : Path) := ∃ name, ProperName name ∧ p = s.workspace.child name
  have made : (furnish s.workspace (.ok removed) deadline).Ends (answer o) m fun _ _ n =>
      n.disk = m.disk ∨ ∃ p, Within p ∧ Disk.Refilled p m.disk n.disk := by
    refine furnish_inv (I := fun n : Machine => n.disk = m.disk ∨
      ∃ p, Within p ∧ Disk.Refilled p m.disk n.disk) (.inl rfl) ?_ _ deadline
    intro child hc q n h before
    have hn := properName_child hc
    exact refilled_makes h (laid.workspace.child hn) wf ⟨_, hn, rfl⟩ before
  have reached := furnish_bare (o := o) laid placed (Disk.bare_of_missing absolute missing) removed deadline
  refine (made.and reached).mono fun r _ n ⟨made, reached⟩ workspace hr => ?_
  obtain ⟨-, place, leads⟩ := reached workspace hr
  obtain ⟨dest, leads, -⟩ := (laid.child_extends properName_target).leadsTo absolute leads
  rcases made with same | ⟨_, ⟨name, hn, rfl⟩, refilled⟩
  · exact (Disk.not_leadsTo_of_missing absolute missing (same ▸ leads)).elim
  · exact laid.refilled (fun _ => Disk.not_leadsTo_of_missing absolute missing) leads hn refilled

theorem prepare_renews (laid : s.Laid) (placed : s.Placed) (honest : o.Honest)
    (wf : m.disk.root.WellFormed) (deadline : Option Nat) :
    (prepare s.workspace deadline).Ends (answer o) m fun r _ n =>
      ∀ workspace, r = .ok workspace → ∃ gone, Disk.Anew s.workspace m.disk gone n.disk :=
  prepare_ends laid honest wf fun m₁ removed vacated =>
    (furnish_refills laid placed vacated.missing vacated.form removed deadline).mono
      fun _ _ _ refilled w hr =>
        ⟨m₁.disk, refilled w hr, vacated.cleared, vacated.ways, vacated.form⟩

end Workspace

namespace Pipeline

/-- If the removal of an old archive succeeds, what the path of the archive names is dropped. -/
theorem removeStale_drops {output : Path} (absolute : output.isAbsolute) (honest : o.Honest)
    (deadline : Option Nat) :
    (removeStaleArchive output deadline).Ends (answer o) m fun r _ n =>
      r = .ok () → Disk.Dropped output m.disk n.disk := by
  have unlinked (m : Machine) : m.disk.unlink m.cwd output = m.disk.unlink [] output := by
    unfold Disk.unlink
    rw [Disk.lookupParent_absolute absolute m.cwd []]
  have seen (m : Machine) : m.disk.stat m.cwd false output = m.disk.stat [] false output := by
    unfold Disk.stat
    rw [Disk.resolve_absolute absolute m.cwd []]
  refine Work.ends_bind.mpr (ends_await (fun _ _ _ h => by cases h) fun m₁ same => ?_)
  have looked : Same m₁ (answer o (.stat false output) m₁).2 :=
    same_quiet (q := .stat false output) trivial o m₁
  refine ends_request.mpr fun es₁ m₂ _ same₂ => ⟨?_, fun h => by cases h⟩
  have disk : m₂.disk = m.disk := same₂.disk.trans (looked.disk.trans same.disk)
  rcases hr : (answer o (.stat false output) m₁).1 with e | status
  · dsimp only
    split
    next he =>
      subst he
      have missing := stat_missing honest hr
      rw [seen, same.disk] at missing
      exact fun _ => .inl ⟨disk, missing⟩
    next => exact fun h => by cases h
  · refine Work.ends_bind.mpr (Work.ends_failIf.mpr ?_)
    cases decide (status.kind = .dir) with
    | true => exact fun h => by cases h
    | false =>
      refine Work.ends_bind.mpr (ends_await (fun _ _ _ h => by cases h) fun m₃ same₃ => ?_)
      refine ends_request.mpr fun es₂ m₄ _ same₄ => ⟨?_, fun h => by cases h⟩
      refine Work.ends_bind.mpr (Work.ends_ofExcept.mpr ?_)
      rcases hu : (answer o (.unlink output) m₃).1 with e | ⟨⟩
      · exact fun h => by cases h
      · rcases changed_unlink o m₃ output with ⟨-, hop, -⟩ | ⟨⟨e, he⟩, -⟩
        · rw [unlinked, same₃.disk, disk] at hop
          exact fun _ => .inr (hop.trans (congrArg Except.ok same₄.disk.symm))
        · cases he.symm.trans hu

/-- The first stage renews the disk. -/
theorem clean_renews (laid : s.Laid) (placed : s.Placed) (honest : o.Honest)
    (wf : m.disk.root.WellFormed) (deadline : Option Nat) :
    (clean s deadline).Ends (answer o) m fun r _ n => ∀ workspace, r = .ok workspace →
      ∃ gone full, Disk.Renewed s.workspace s.output m.disk gone full n.disk := by
  refine Work.ends_bind.mpr ((Workspace.prepare_renews laid placed honest wf deadline).mono ?_)
  rintro (stop | workspace) _ m₁ anew
  · exact fun _ h => by cases h
  obtain ⟨gone, anew⟩ := anew workspace rfl
  have made : (makeDist s deadline).Ends (answer o) m₁ fun _ _ m₂ =>
      Disk.Anew s.workspace m.disk gone m₂.disk := by
    refine (only_makeDist s (fun _ _ h => h) deadline).run_inv
      (I := fun m₂ : Machine => Disk.Anew s.workspace m.disk gone m₂.disk) ?_ anew
    rintro q m₂ (h | ⟨made, -, rfl⟩) anew
    · rw [(same_quiet h o m₂).disk]
      exact anew
    · obtain ⟨more, wf⟩ := enlarged_mkdir o m₂ made anew.form'
      exact { anew with toRefilled := anew.enlarge more wf }
  refine Work.ends_bind.mpr (made.mono ?_)
  rintro (stop | _) _ m₂ anew
  · exact fun _ h => by cases h
  refine Work.ends_bind.mpr ((removeStale_drops laid.output.absolute honest deadline).mono ?_)
  rintro (stop | _) _ m₃ dropped
  · exact fun _ h => by cases h
  · exact fun _ _ => ⟨gone, m₂.disk, anew, dropped rfl⟩

end Pipeline

end LayerPack
