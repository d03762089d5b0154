import LayerPack.Proofs.Archive.Atomicity
import LayerPack.Proofs.Disk.Unused
import LayerPack.Proofs.Pipeline.Calls
import LayerPack.Proofs.Pipeline.Emptied
import LayerPack.Proofs.Pipeline.Outcome
import LayerPack.Proofs.Pipeline.Passage

/-! What a run that has failed leaves at the output, wherever links lead. When the first stage is over,
nothing is found there. Removals, calls that put nothing there, and archiving that fails keep it so; only
the making of a directory can bring something back, by opening the way that a link takes. If the first
stage fails before the old archive was removed, what the output led to still stands, unless it stood in
the old workspace. -/
namespace LayerPack

open Program Machine

variable {s : Settings} {o : Outside} {m m' m'' : Machine} {es es' : List (Request × Machine)}
  {p : Path} {ways : List Path}

/-! ### Paths that lead nowhere -/

namespace Disk

variable {d d' : Disk} {cwd : Place} {names : List Name}

/-- If a disk has no ways but those of another one, and no entry of the last name but where that one has
one, then the path leads nowhere on it unless it leads somewhere on the other one. -/
theorem reaches_of_sheds (proper : ∀ name ∈ names, ProperName name)
    (kept : d'.root.KeepsWays d.root) (sheds : ∀ dir name, names.getLast? = some name →
      d.get? (dir ++ [name]) = none → d'.get? (dir ++ [name]) = none)
    (h : d'.Reaches cwd (.ofNames names)) : d.Reaches cwd (.ofNames names) := by
  obtain ⟨found, hf⟩ := h
  rcases List.eq_nil_or_concat names with rfl | ⟨up, name, rfl⟩
  · have root (d : Disk) : d.lookup cwd false (.ofNames []) = chase d.root false maxLinks [] [[]] := rfl
    have arrived := resolve_ok.mp hf
    rw [root] at arrived
    obtain ⟨es, he⟩ := dir_of_chase (by simp) arrived
    obtain ⟨-, es', he'⟩ := Node.look_eq_dir.mp (kept.dir [] (Node.look_of_get? he))
    exact ⟨([], .dir es'), resolve_ok.mpr ((root d).trans (chase_dir he'))⟩
  rw [List.concat_eq_append] at proper sheds hf ⊢
  obtain ⟨dir, last, way⟩ := lookupParent_of_lookup (resolve_ok.mp hf)
  obtain rfl := (Prod.mk.inj (lookupParent_concat proper way)).2
  have way' := lookupParent_keeps kept way
  have there : d.get? (dir ++ [name]) ≠ none := fun none => by
    rw [resolve_entry way, sheds dir name (by simp) none] at hf
    cases hf
  obtain ⟨node, hn⟩ := Option.ne_none_iff_exists'.mp there
  exact ⟨_, by rw [resolve_entry way', hn]⟩

end Disk

namespace Machine

theorem missing_iff : m.Missing p ↔ ¬ m.disk.Reaches m.cwd p := by
  simp only [Missing, Disk.Reaches, not_exists]

theorem missing_of_stat (h : m.disk.stat m.cwd false p = .error .noEntry) : m.Missing p := by
  intro found hf
  rw [Disk.stat, hf] at h
  cases h

/-- What is only taken away cannot be found. -/
theorem Missing.shed (h : m.Missing p) (written : p = .ofNames p.names) (spells : p.Spells p.names)
    (cwd : m'.cwd = m.cwd) (kept : m'.disk.root.KeepsWays m.disk.root)
    (sheds : ∀ place, m.disk.get? place = none → m'.disk.get? place = none) : m'.Missing p := by
  rw [missing_iff, cwd, written]
  rw [missing_iff, written] at h
  exact fun reached => h (Disk.reaches_of_sheds spells.proper kept (fun _ _ _ => sheds _) reached)

end Machine

/-- A request that puts nothing on the disk, unless it is a call and somebody else does. -/
inductive Request.Sheds : Request → Prop
  | quiet {q : Request} (h : q.Quiet) : Sheds q
  | log (level : Level) (text : String) : Sheds (.log level text)
  | unlink (p : Path) : Sheds (.unlink p)
  | removeTree (p : Path) : Sheds (.removeTree p)
  | collaborate (call : Call) (deadline : Option Nat) : Sheds (.collaborate call deadline)

/-- In what they were asked, the collaborators have put nothing at a path where nothing was found. -/
def Outside.Shuns (o : Outside) (p : Path) (es : List (Request × Machine)) : Prop :=
  ∀ e ∈ es, e.1.isCall = true → e.2.Missing p → (answer o e.1 e.2).2.Missing p

instance (m : Machine) (p : Path) : Decidable (m.Missing p) :=
  decidable_of_iff (m.disk.resolve m.cwd false p).toOption.isNone <| by
    unfold Missing
    cases m.disk.resolve m.cwd false p <;> simp [Except.toOption]

instance (o : Outside) (p : Path) (es : List (Request × Machine)) : Decidable (o.Shuns p es) :=
  inferInstanceAs (Decidable (∀ e ∈ es, _ → _ → Missing _ _))

theorem Outside.Shuns.mono (h : o.Shuns p es') (sub : es ⊆ es') : o.Shuns p es :=
  fun e he => h e (sub he)

theorem Machine.missing_sheds {q : Request} (hq : q.Sheds) (written : p = .ofNames p.names)
    (spells : p.Spells p.names) (wf : m.disk.root.WellFormed)
    (shuns : q.isCall = true → m.Missing p → (answer o q m).2.Missing p) (h : m.Missing p) :
    (answer o q m).2.Missing p := by
  cases hq with
  | quiet quiet => exact (same_quiet quiet o m).missing h
  | log level text => exact (same_log level text).missing h
  | unlink q =>
    rcases changed_unlink o m q with ⟨-, hop, cwd⟩ | ⟨-, same⟩
    · obtain ⟨place, seated, hd⟩ := Disk.unlink_seat hop
      refine h.shed written spells cwd ?_ fun place => Disk.unlink_sheds wf hop
      rw [hd]
      exact Disk.erase_keepsWays wf (Disk.ne_nil_of_seat seated)
    · exact same.missing h
  | removeTree q =>
    obtain ⟨hd, cwd⟩ := removeTree_cases o m q
    refine h.shed written spells cwd ?_ ?_ <;> rcases hd with hd | hd <;> rw [hd]
    · exact Disk.removeTree_keepsWays wf
    · exact .refl _
    · exact fun place => Disk.removeTree_sheds wf
    · exact fun place => id
  | collaborate call deadline => exact shuns rfl h

/-- A directory was made above one of these ways, and then a path led somewhere that had led nowhere. -/
def Unveils (o : Outside) (ways : List Path) (p : Path) (es : List (Request × Machine)) : Prop :=
  ∃ way ∈ ways, ∃ up before, Path.Above up way ∧ (.mkdir up, before) ∈ es ∧ before.Missing p ∧
    ¬ (answer o (.mkdir up) before).2.Missing p

theorem Unveils.mono (h : Unveils o ways p es) (sub : es ⊆ es') : Unveils o ways p es' := by
  obtain ⟨way, hw, up, before, above, he, shown⟩ := h
  exact ⟨way, hw, up, before, above, sub he, shown⟩

theorem not_unveils_nil : ¬ Unveils o [] p es := by simp [Unveils]

/-- A request that puts nothing there, or the making of a directory above one of these ways. -/
def Request.Tidies (ways : List Path) (q : Request) : Prop :=
  q.Sheds ∨ ∃ way ∈ ways, ∃ up, Path.Above up way ∧ q = .mkdir up

theorem Request.Makes.tidies {q : Request} {way : Path} (h : q.Makes way) (hw : way ∈ ways) :
    q.Tidies ways := by
  rcases h with h | ⟨up, above, rfl⟩
  · exact .inl (.quiet h)
  · exact .inr ⟨way, hw, up, above, rfl⟩

/-- Only the making of a directory lets a path lead somewhere. -/
theorem Machine.missing_run {α : Type} {program : Program α} (hp : program.Only (Request.Tidies ways))
    (written : p = .ofNames p.names) (spells : p.Spells p.names) (wf : m.disk.root.WellFormed)
    (h : m.Missing p) : program.Ends (answer o) m fun _ es m' => o.KeepsForm es → o.Shuns p es →
      m'.Missing p ∨ Unveils o ways p es := by
  refine hp.run_history (H := fun m es m' => m.disk.root.WellFormed → m.Missing p → o.KeepsForm es →
    o.Shuns p es → m'.Missing p ∨ Unveils o ways p es) (fun _ _ h _ _ => .inl h) ?_ m wf h
  intro q m es m' hq rest wf h keeps shuns
  have wf' := wellFormed_step q (fun hq => keeps (q, m) List.mem_cons_self hq wf) wf
  have later (h' : (answer o q m).2.Missing p) : m'.Missing p ∨ Unveils o ways p ((q, m) :: es) :=
    (rest wf' h' (keeps.mono (List.subset_cons_self _ _)) (shuns.mono (List.subset_cons_self _ _))).imp_right
      fun shown => shown.mono (List.subset_cons_self _ _)
  rcases hq with sheds | ⟨way, hw, up, above, rfl⟩
  · exact later (missing_sheds sheds written spells wf (shuns (q, m) List.mem_cons_self) h)
  · by_cases h' : (answer o (.mkdir up) m).2.Missing p
    · exact later h'
    · exact .inr ⟨way, hw, up, m, above, List.mem_cons_self, h, h'⟩

theorem Program.Only.not_unlinked {α : Type} {K : Request → Prop} {program : Program α}
    (hp : program.Only K) (hK : ¬ K (.unlink p)) :
    program.Ends (answer o) m fun _ es _ => ¬ Unlinked o p es :=
  fun ⟨_, he, _⟩ => hK (hp.trace (answer o) m _ he)

/-- Work on nothing but a path removes what it names, and then nothing is found there, or it changes
nothing. -/
theorem Machine.unlink_run {α : Type} {program : Program α}
    (hp : program.Only fun q => q.Quiet ∨ q = .unlink p) (wf : m.disk.root.WellFormed) :
    program.Ends (answer o) m fun _ es m' =>
      (¬ Unlinked o p es ∧ Same m m') ∨ (Unlinked o p es ∧ m'.Missing p) := by
  refine hp.run_history (H := fun m es m' => m.disk.root.WellFormed →
    (¬ Unlinked o p es ∧ Same m m') ∨ (Unlinked o p es ∧ m'.Missing p))
    (fun m _ => .inl ⟨by simp [Unlinked], .refl m⟩) ?_ m wf
  intro q m es m' hq rest wf
  -- A request that changes nothing can come before.
  have after (kept : ¬ Unlinked o p [(q, m)]) (same : Same m (answer o q m).2) :
      (¬ Unlinked o p ((q, m) :: es) ∧ Same m m') ∨ (Unlinked o p ((q, m) :: es) ∧ m'.Missing p) := by
    rw [← List.singleton_append, unlinked_append]
    rcases rest (same.wellFormed wf) with ⟨kept', same'⟩ | ⟨removed, missing⟩
    · exact .inl ⟨not_or.mpr ⟨kept, kept'⟩, same.trans same'⟩
    · exact .inr ⟨.inr removed, missing⟩
  rcases hq with quiet | rfl
  · refine after ?_ (same_quiet quiet o m)
    rintro ⟨before, he, -⟩
    obtain ⟨rfl, -⟩ := Prod.mk.inj (List.mem_singleton.mp he)
    exact quiet
  · rcases changed_unlink o m p with ⟨hr, hop, cwd⟩ | ⟨⟨e, hr⟩, same⟩
    · have gone : (answer o (.unlink p) m).2.Missing p := fun found => by
        rw [cwd]
        exact Disk.unlink_notFound wf hop found
      refine .inr ⟨⟨m, List.mem_cons_self, hr⟩, ?_⟩
      rcases rest ((Disk.unlink_tame hop).wellFormed wf) with ⟨-, same⟩ | ⟨-, missing⟩
      · exact same.missing gone
      · exact missing
    · refine after (fun h => ?_) same
      cases hr.symm.trans (unlinked_unlink.mp h)

/-! ### The first stage -/

theorem Request.Removes.sheds {q : Request} (h : q.Removes p) : q.Sheds := by
  rcases h with h | rfl | rfl
  · exact .quiet h
  · exact .unlink p
  · exact .removeTree p

theorem Request.Removes.ne_unlink {q : Request} {p' : Path} (h : q.Removes p) (hne : p ≠ p') :
    q ≠ .unlink p' := by
  rintro rfl
  rcases h with h | h | h
  · exact h
  · exact hne (Request.unlink.inj h).symm
  · cases h

namespace Pipeline

theorem only_clean_tidies (s : Settings) : (clean s).Only (Request.Tidies s.furnished) := by
  refine (only_clean s).mono fun q h => ?_
  rcases h with h | h | h | ⟨outside, h⟩ | rfl
  · exact .inl h.sheds
  · exact h.tidies (by simp [Settings.furnished])
  · exact h.tidies (by simp [Settings.furnished, Settings.tree])
  · exact h.tidies (by simp [Settings.furnished, outside])
  · exact .inl (.unlink _)

theorem removeStale_vacates (honest : o.Honest) (wf : m.disk.root.WellFormed) (output : Path)
    (deadline : Option Nat) :
    (removeStaleArchive output deadline).Ends (answer o) m fun r es m' =>
      (r = .ok () → m'.Missing output) ∧
        ((¬ Unlinked o output es ∧ Same m m') ∨ (Unlinked o output es ∧ m'.Missing output)) := by
  refine ((removeStale_ends honest output deadline).and
    (unlink_run (only_removeStaleArchive output deadline) wf)).mono ?_
  rintro r es m' ⟨succeeded, done⟩
  refine ⟨fun hr => ?_, done⟩
  rcases done with ⟨kept, same⟩ | ⟨-, missing⟩
  · exact same.missing (missing_of_stat ((succeeded hr).resolve_right kept))
  · exact missing

/-- When the first stage is over, nothing is found at the output. If it has failed, then nothing is found
there since the old archive was removed, or nothing was lost that did not stand in the old workspace. -/
theorem clean_vacates (laid : s.Laid) (honest : o.Honest) (wf : m.disk.root.WellFormed)
    (deadline : Option Nat) :
    (clean s deadline).Ends (answer o) m fun r es m' =>
      ((∃ workspace, r = .ok workspace) → m'.Missing s.output) ∧
        ((¬ Unlinked o s.output es ∧ Kept s.workspace m m') ∨
          (Unlinked o s.output es ∧ m'.Missing s.output)) := by
  obtain ⟨parts, name, hs⟩ := Disk.splitLast_ofNames laid.workspace.proper laid.notRoot
  rw [← laid.written.1] at hs
  -- Up to the removal of the old archive nothing is asked about the output.
  have removes {q : Request} (h : q.Removes s.workspace) :
      q ≠ .unlink s.output ∧ q.isForeign = false := ⟨h.ne_unlink laid.workspace_ne, h.alone⟩
  have makes {q : Request} {way : Path} (h : q.Makes way) :
      q ≠ .unlink s.output ∧ q.isForeign = false := by
    refine ⟨?_, h.alone⟩
    rintro rfl
    rcases h with h | ⟨up, -, h⟩
    · exact h
    · cases h
  have aside {α : Type} {m : Machine} {work : Work α} (wf : m.disk.root.WellFormed)
      (asks : work.Only fun q => q ≠ .unlink s.output ∧ q.isForeign = false) :
      (work deadline).Ends (answer o) m fun _ es m' =>
        ¬ Unlinked o s.output es ∧ m'.disk.root.WellFormed :=
    ((asks deadline).not_unlinked fun h => h.1 rfl).and
      ((asks deadline).wellFormed (fun _ h => h.2) wf)
  have preparing : (Workspace.prepare s.workspace).Only fun q =>
      q ≠ .unlink s.output ∧ q.isForeign = false := by
    rw [Workspace.prepare_eq]
    refine Work.Only.bind (Work.Only.await (removes (.inl trivial))
      ((Files.only_removePath s.workspace).mono fun _ => removes)) fun removed => ?_
    exact Workspace.only_furnish s.workspace removed (fun _ => makes) fun _ => makes
  refine Work.ends_bind.mpr (((Workspace.prepare_kept hs deadline).and (aside wf preparing)).mono ?_)
  rintro (stop | workspace) es₁ m₁ ⟨kept, asked₁, wf₁⟩
  · exact ⟨fun ⟨_, h⟩ => (by cases h), .inl ⟨asked₁, kept⟩⟩
  have making := only_makeDist s fun _ _ h => makes h
  have grown : (makeDist s deadline).Ends (answer o) m₁ fun _ _ m₂ => Grown m₁ m₂ :=
    grown_run (only_makeDist s (fun _ _ h => h.furnishes) deadline) o m₁
  refine Work.ends_bind.mpr ((grown.and (aside wf₁ making)).mono ?_)
  rintro (stop | ⟨⟩) es₂ m₂ ⟨grown, asked₂, wf₂⟩
  · refine ⟨fun ⟨_, h⟩ => (by cases h), .inl ⟨?_, kept.grown grown⟩⟩
    exact fun h => (unlinked_append.mp h).elim asked₁ asked₂
  have last (es₃ : List (Request × Machine)) :
      Unlinked o s.output (es₁ ++ (es₂ ++ es₃)) ↔ Unlinked o s.output es₃ := by
    simp only [unlinked_append, asked₁, asked₂, false_or]
  refine Work.ends_bind.mpr ((removeStale_vacates honest wf₂ s.output deadline).mono ?_)
  rintro r es₃ m₃ ⟨succeeded, done⟩
  have outcome : (¬ Unlinked o s.output (es₁ ++ (es₂ ++ es₃)) ∧ Kept s.workspace m m₃) ∨
      (Unlinked o s.output (es₁ ++ (es₂ ++ es₃)) ∧ m₃.Missing s.output) := by
    rw [last]
    exact done.imp_left fun ⟨asked₃, same⟩ => ⟨asked₃, (kept.grown grown).grown same.grown⟩
  cases r with
  | error stop => exact ⟨fun ⟨_, h⟩ => (by cases h), outcome⟩
  | ok =>
    refine ⟨fun _ => succeeded rfl, ?_⟩
    rwa [← List.append_nil es₃] at outcome

end Pipeline

/-! ### Archiving that fails -/

/-- A path that is written by its names does not go up. -/
theorem Path.dotdot_notMem_splitSlash {names : List Name} (proper : ∀ name ∈ names, ProperName name) :
    dotdot ∉ splitSlash (Path.ofNames names).bytes := by
  rw [Path.ofNames, splitSlash_slash]
  by_cases hne : names = []
  · subst hne
    decide
  · rw [splitSlash_joinSlash hne fun name hn => (proper name hn).noSlash, List.mem_cons, not_or]
    exact ⟨by decide, fun hm => (proper _ hm).notDotdot rfl⟩

namespace Archive

variable {root output hidden : Path} {files : List Path} {name : Name}

/-- What has been worked on besides leads nowhere. -/
theorem Abandoned.missing (h : Abandoned hidden name m m') (reserved : m'.disk.Reserved name)
    (written : p = .ofNames p.names) (spells : p.Spells p.names) (other : p.names.getLast? ≠ some name)
    (nothing : m.Missing p) : m'.Missing p := by
  rcases h with same | ⟨parent, started⟩
  · exact same.missing nothing
  have back : m'.disk.ChangedAt (parent ++ [name]) m.disk := fun q hq => (started.changed q hq).symm
  have noWay : m'.disk.NoWay (parent ++ [name]) := by
    constructor
    · intro es he
      obtain ⟨_, _, _, h⟩ := reserved.file parent _ he
      cases h
    · intro target ht
      obtain ⟨_, _, _, h⟩ := reserved.file parent _ ht
      cases h
  rw [missing_iff, started.cwd, written]
  rw [missing_iff, written] at nothing
  refine fun reached => nothing (Disk.reaches_of_sheds spells.proper (back.keepsWays noWay) ?_ reached)
  intro dir last hlast none
  by_cases hp : parent ++ [name] <+: dir ++ [last]
  case neg => exact Node.look_eq_none.mp ((started.changed _ hp).trans (Node.look_eq_none.mpr none))
  refine Option.eq_none_iff_forall_ne_some.mpr fun node hn =>
    Disk.not_prefix_of_noDir hn noWay.dir (fun he => other ?_) hp
  rw [hlast, List.singleton_inj.mp (List.append_inj' he rfl).2]

/-- The name of a hidden file is not that of its output. -/
theorem getLast?_ne_partialName {fresh : String} (spells : output.Spells output.names) :
    output.names.getLast? ≠ some (partialName output fresh) := by
  intro h
  obtain ⟨up, hup⟩ := List.getLast?_eq_some_iff.mp h
  rw [hup] at spells
  exact partialName_ne spells.fileName? rfl

/-- What is delivered in vain does not lead to the output. -/
theorem deliver_missing (written : output = .ofNames output.names)
    (spells : output.Spells output.names) (wf : m.disk.root.WellFormed) (nothing : m.Missing output)
    (deadline : Option Nat) :
    (deliver root output files deadline).Ends (answer o) m fun r _ m' =>
      ∀ stop, r = .error stop → m'.Missing output := by
  refine ends_deliver fun fresh m₁ same noSlash missing => ?_
  rw [← same.disk] at wf
  have nothing := same.missing nothing
  obtain ⟨parts, hs⟩ := splitLast_partialPath output noSlash
  have reserved : m₁.disk.Reserved (partialName output fresh) :=
    ⟨wf, fun dest node hn => by cases (missing dest).symm.trans hn⟩
  have worked : ((writeAndMove root files (partialPath output fresh) output).onStop
      (removePartial (partialPath output fresh)) deadline).Ends (answer o) m₁ fun _ _ m₂ =>
        m₂.disk.Reserved (partialName output fresh) :=
    (only_moveOrRemove root output fresh files deadline).run_inv (I := fun m : Machine =>
      m.disk.Reserved _) (fun q m hq h => reserved_step hs hq h) reserved
  have outcome : ((writeAndMove root files (partialPath output fresh) output).onStop
      (removePartial (partialPath output fresh)) deadline).Ends (answer o) m₁ fun r _ m₂ =>
        ∀ stop, r = .error stop →
          Abandoned (partialPath output fresh) (partialName output fresh) m₁ m₂ := by
    refine Work.ends_onStop.mpr ((writeAndMove_ends hs missing).mono ?_)
    rintro (stop | measured) es m₂ (⟨-, abandoned⟩ | ⟨_, _, hr, -⟩)
    · exact (removePartial_abandoned hs missing abandoned).mono fun _ _ _ h _ _ => h
    · cases hr
    · exact fun _ h => by cases h
    · exact fun _ h => by cases h
  refine (worked.and outcome).mono fun r _ m₂ ⟨reserved, abandoned⟩ stop hr => ?_
  exact (abandoned stop hr).missing reserved written spells (getLast?_ne_partialName spells) nothing

theorem write_missing (written : output = .ofNames output.names)
    (spells : output.Spells output.names) (wf : m.disk.root.WellFormed) (nothing : m.Missing output)
    (deadline : Option Nat) :
    (write root output deadline).Ends (answer o) m fun r _ m' =>
      ∀ stop, r = .error stop → m'.Missing output := by
  refine Work.ends_bind.mpr ((prepare_ends.and (prepare_undone root output deadline)).mono ?_)
  rintro r es m₁ ⟨⟨grown, -⟩, undone⟩
  have down : dotdot ∉ splitSlash output.bytes := written ▸ Path.dotdot_notMem_splitSlash spells.proper
  have nothing₁ : m₁.Missing output := missing_iff.mpr (undone.missing down (missing_iff.mp nothing))
  cases r with
  | error stop => exact fun _ _ => nothing₁
  | ok files =>
    have wf₁ := grown.2.1.wellFormed wf
    refine Work.ends_bind.mpr ((deliver_missing written spells wf₁ nothing₁ deadline).mono ?_)
    rintro (stop | measured) es₂ m₂ failed
    · exact fun _ _ => failed stop rfl
    · exact fun _ h => by cases h

end Archive

/-! ### The later stages -/

namespace Pipeline

section Stages

variable {limit : Option Nat} {startedAt : Nat} {wheel : Wheel} {treeDigest : String} {progress : Progress}

theorem same_atWork (stage : Stage) : Same m (atWork (answer o) stage m) := ⟨rfl, rfl⟩

theorem same_afterWork (stage : Stage) (duration : Nat) :
    Same m (afterWork (answer o) stage duration m) := ⟨rfl, rfl⟩

/-- A stage that fails before the archive is there leaves nothing at the output. -/
theorem archive_vacant (laid : s.Laid) :
    ((do
      let archive ← Pipeline.stage limit .archive
        (Archive.write (⟨s.workspace⟩ : Workspace).target s.output)
      finish s Toolchain.outside startedAt ⟨s.workspace⟩ wheel treeDigest archive : Steps Report)
      progress).Ends (answer o) m fun r _ m' =>
        ∀ failure, r.1 = .error failure → failure.stage ≠ .reconcile → failure.stage = .archive ∧
          (m.disk.root.WellFormed → m.Missing s.output → m'.Missing s.output) := by
  have before : Same m (atWork (answer o) .archive m) := same_atWork _
  refine ends_stage_bind (Ends.mono (Q := fun r _ m' => ∀ stop, r = .error stop →
    m.disk.root.WellFormed → m.Missing s.output → m'.Missing s.output) ?_ ?_)
  · exact fun stop hr wf nothing => Archive.write_missing laid.written.2 laid.output
      (before.wellFormed wf) (before.missing nothing) _ stop hr
  rintro (stop | archive) es₁ m₁ failed
  · rintro _ ⟨⟩ -
    exact ⟨rfl, failed stop rfl⟩
  · intro duration
    refine finish_ends.mono ?_
    rintro ⟨r, _⟩ es₂ m₂ ⟨-, hr⟩ failure hf hs
    change r = _ at hf
    rw [hf] at hr
    exact (hs hr).elim

/-- While files are installed, the making of a directory can let the output lead somewhere. -/
theorem install_vacant (laid : s.Laid) :
    ((do
      let treeDigest ← Pipeline.stage limit .materialize
        (install Toolchain.outside s ⟨s.workspace⟩ wheel)
      let archive ← Pipeline.stage limit .archive
        (Archive.write (⟨s.workspace⟩ : Workspace).target s.output)
      finish s Toolchain.outside startedAt ⟨s.workspace⟩ wheel treeDigest archive : Steps Report)
      progress).Ends (answer o) m fun r es m' => m.disk.root.WellFormed → m.Missing s.output →
        o.KeepsForm es → o.Shuns s.output es →
          ∀ failure, r.1 = .error failure → failure.stage ≠ .reconcile → failure.stage ≠ .build ∧
            (m'.Missing s.output ∨ Unveils o [s.installDir] s.output es) := by
  have before : Same m (atWork (answer o) .materialize m) := same_atWork _
  have asks : (install Toolchain.outside s ⟨s.workspace⟩ wheel).Only (Request.Tidies [s.installDir]) :=
    only_install s _ wheel (fun _ h => .inl (.quiet h))
      (fun up above => .inr ⟨_, List.mem_singleton_self _, up, above, rfl⟩)
      (only_perform fun _ => .inl (.collaborate _ _))
  refine ends_stage_bind (Ends.mono (Q := fun _ es m' => m.disk.root.WellFormed → m.Missing s.output →
    o.KeepsForm es → o.Shuns s.output es → m'.disk.root.WellFormed ∧
      (m'.Missing s.output ∨ Unveils o [s.installDir] s.output es)) ?_ ?_)
  · exact fun wf nothing keeps shuns => ⟨ends_wellFormed _ (before.wellFormed wf) keeps,
      missing_run (asks _) laid.written.2 laid.output (before.wellFormed wf) (before.missing nothing)
        keeps shuns⟩
  rintro (stop | treeDigest) es₁ m₁ known
  · rintro wf nothing keeps shuns _ ⟨⟩ -
    have sub : es₁ ⊆ opening (answer o) .materialize m ++ es₁ := List.subset_append_right _ _
    refine ⟨by simp, ?_⟩
    exact (known wf nothing (keeps.mono sub) (shuns.mono sub)).2.imp_right fun shown => shown.mono sub
  · intro duration
    refine (archive_vacant laid).mono fun r es₂ m₂ archived => ?_
    intro wf nothing keeps shuns failure hf hs
    obtain ⟨hstage, kept⟩ := archived failure hf hs
    have after : Same m₁ (afterWork (answer o) .materialize duration m₁) := same_afterWork _ _
    have sub : es₁ ⊆ opening (answer o) .materialize m ++ es₁ ++
        closing (answer o) .materialize duration m₁ ++ es₂ := fun e he => by simp [he]
    obtain ⟨wf₁, nothing₁ | shown⟩ := known wf nothing (keeps.mono sub) (shuns.mono sub)
    · exact ⟨by simp [hstage], .inl (kept (after.wellFormed wf₁) (after.missing nothing₁))⟩
    · exact ⟨by simp [hstage], .inr (shown.mono sub)⟩

/-- If the output leads nowhere after the first stage, then it leads nowhere when the build or the archive
has failed, unless the making of a directory for the installer has let it lead somewhere. -/
theorem laterStages_vacant (laid : s.Laid) (wf : m.disk.root.WellFormed)
    (nothing : m.Missing s.output) :
    (laterStages s Toolchain.outside startedAt ⟨s.workspace⟩ progress).Ends (answer o) m
      fun r es m' => o.KeepsForm es → o.Shuns s.output es →
        ∀ failure, r.1 = .error failure → failure.stage ≠ .reconcile →
          m'.Missing s.output ∨ (failure.stage ≠ .build ∧ Unveils o [s.installDir] s.output es) := by
  have before : Same m (atWork (answer o) .build m) := same_atWork _
  have asks : (buildWheel Toolchain.outside s.source s.dist s.project).Only (Request.Tidies []) :=
    only_buildWheel s (fun _ h => .inl (.quiet h)) (only_perform fun _ => .inl (.collaborate _ _))
  refine ends_stage_bind (((ends_wellFormed _ (before.wellFormed wf)).and (missing_run (asks _)
    laid.written.2 laid.output (before.wellFormed wf) (before.missing nothing))).mono ?_)
  rintro (stop | wheel) es₁ m₁ ⟨formed, known⟩
  · rintro keeps shuns _ ⟨⟩ -
    have sub : es₁ ⊆ opening (answer o) .build m ++ es₁ := List.subset_append_right _ _
    exact .inl ((known (keeps.mono sub) (shuns.mono sub)).resolve_right not_unveils_nil)
  · intro duration
    refine (install_vacant laid).mono fun r es₂ m₂ installed => ?_
    intro keeps shuns failure hf hs
    have after : Same m₁ (afterWork (answer o) .build duration m₁) := same_afterWork _ _
    have sub : es₁ ⊆ opening (answer o) .build m ++ es₁ ++ closing (answer o) .build duration m₁ ++ es₂ :=
      fun e he => by simp [he]
    have sub' : es₂ ⊆ opening (answer o) .build m ++ es₁ ++ closing (answer o) .build duration m₁ ++ es₂ :=
      List.subset_append_right _ _
    have nothing₁ := (known (keeps.mono sub) (shuns.mono sub)).resolve_right not_unveils_nil
    obtain ⟨hstage, left⟩ := installed (after.wellFormed (formed (keeps.mono sub)))
      (after.missing nothing₁) (keeps.mono sub') (shuns.mono sub') failure hf hs
    exact left.imp_right fun shown => ⟨hstage, shown.mono sub'⟩

end Stages

/-! ### The whole run -/

/-- What a run that has failed before its last stage leaves at the output, wherever links lead. When the
first stage has passed, nothing is found there, unless a directory for the installer lets the output lead
somewhere again. In the first stage nothing is found there once the old archive was removed, and nothing
comes to be there unless the output leads somewhere by a new directory; before, what it has led to stays,
if it did not stand in the old workspace. -/
structure Vacant (o : Outside) (s : Settings) (m : Machine) (stage : Stage)
    (es : List (Request × Machine)) (m' : Machine) : Prop where
  later : stage ≠ .clean → ∃ front rest, es = front ++ rest ∧ .passed .clean ∈ marksOf front ∧
    (m'.Missing s.output ∨ (stage ≠ .build ∧ Unveils o [s.installDir] s.output rest))
  removed : stage = .clean → Unlinked o s.output es → m'.Missing s.output
  missing : stage = .clean → m.Missing s.output →
    m'.Missing s.output ∨ Unveils o s.furnished s.output es
  stale : stage = .clean → ¬ Unlinked o s.output es → ∀ place node,
    m.disk.resolve m.cwd false s.output = .ok (place, node) → ¬ m.Wiped s.workspace place →
      m'.disk.look place = m.disk.look place

namespace Vacant

variable {stage : Stage}

theorem append (h : Vacant o s m stage es m') (asked : ¬ Unlinked o s.output es')
    (kept : m'.Missing s.output → m''.Missing s.output) (still : stage = .clean → Same m' m'') :
    Vacant o s m stage (es ++ es') m'' := by
  have before : Unlinked o s.output (es ++ es') ↔ Unlinked o s.output es := by
    simp only [unlinked_append, asked, or_false]
  refine ⟨fun hs => ?_, fun hs hu => ?_, fun hs hm => ?_, fun hs hu place node found aside => ?_⟩
  · obtain ⟨front, rest, rfl, passed, left⟩ := h.later hs
    refine ⟨front, rest ++ es', List.append_assoc _ _ _, passed, left.imp kept ?_⟩
    exact fun ⟨built, shown⟩ => ⟨built, shown.mono (List.subset_append_left _ _)⟩
  · exact kept (h.removed hs (before.mp hu))
  · exact (h.missing hs hm).imp kept fun shown => shown.mono (List.subset_append_left _ _)
  · rw [(still hs).disk]
    exact h.stale hs (fun hu' => hu (before.mpr hu')) place node found aside

theorem after {es₀ : List (Request × Machine)} (h : Vacant o s m' stage es m'') (same : Same m m')
    (asked : ¬ Unlinked o s.output es₀) : Vacant o s m stage (es₀ ++ es) m'' := by
  have later : Unlinked o s.output (es₀ ++ es) ↔ Unlinked o s.output es := by
    simp only [unlinked_append, asked, false_or]
  refine ⟨fun hs => ?_, fun hs hu => ?_, fun hs hm => ?_, fun hs hu place node found aside => ?_⟩
  · obtain ⟨front, rest, rfl, passed, left⟩ := h.later hs
    exact ⟨es₀ ++ front, rest, (List.append_assoc _ _ _).symm, by simp [passed], left⟩
  · exact h.removed hs (later.mp hu)
  · exact (h.missing hs (same.missing hm)).imp_right fun shown => shown.mono (List.subset_append_right _ _)
  · rw [← same.disk, ← same.cwd] at found
    have stays := h.stale hs (fun hu' => hu (later.mpr hu')) place node found fun hw =>
      aside ((same.wiped place).mp hw)
    rwa [same.disk] at stays

end Vacant

theorem stages_vacant (laid : s.Laid) (honest : o.Honest) (wf : m.disk.root.WellFormed)
    (startedAt : Nat) (previous : RunState) :
    (stages s Toolchain.outside startedAt { state := previous }).Ends (answer o) m fun r es m' =>
      o.KeepsForm es → o.Shuns s.output es → ∀ failure, r.1 = .error failure →
        failure.stage ≠ .reconcile → Vacant o s m failure.stage es m' := by
  rw [stages_eq]
  have before : Same m (atWork (answer o) .clean m) := same_atWork _
  have wf₀ := before.wellFormed wf
  have unasked : ¬ Unlinked o s.output (opening (answer o) .clean m) := by simp [Unlinked, opening]
  have missing (deadline : Option Nat) : (clean s deadline).Ends (answer o) (atWork (answer o) .clean m)
      fun _ es m' => m.Missing s.output → o.KeepsForm es → o.Shuns s.output es →
        m'.Missing s.output ∨ Unveils o s.furnished s.output es := fun nothing =>
    missing_run (only_clean_tidies s deadline) laid.written.2 laid.output wf₀ (before.missing nothing)
  refine ends_stage_bind ((((clean_yields s).ends.and ((only_clean s _).wellFormed (fun _ h => h.alone) wf₀)).and
    ((clean_vacates laid honest wf₀ _).and (missing _))).mono ?_)
  rintro (stop | workspace) es₁ m₁ ⟨⟨yields, wf₁⟩, ⟨passed, done⟩, known⟩
  · rintro keeps shuns _ ⟨⟩ -
    have sub : es₁ ⊆ opening (answer o) .clean m ++ es₁ := List.subset_append_right _ _
    have vacant : Vacant o s (atWork (answer o) .clean m) .clean es₁ m₁ := {
      later := fun hs => (hs rfl).elim
      removed := fun _ hu => (done.resolve_left fun h => h.1 hu).2
      missing := fun _ hm => known hm (keeps.mono sub) (shuns.mono sub)
      stale := fun _ hu place node found aside => by
        have there : (atWork (answer o) .clean m).disk.get? place = some node :=
          Disk.lookup_sound (Disk.resolve_ok.mp found)
        exact (done.resolve_right fun h => hu h.1).2 place (by simp [there]) aside }
    exact vacant.after before unasked
  · obtain rfl := yields workspace rfl
    have after (duration : Nat) : Same m₁ (afterWork (answer o) .clean duration m₁) :=
      same_afterWork _ _
    intro duration
    have nothing := (after duration).missing (passed ⟨_, rfl⟩)
    refine Ends.mono (Ends.and (Returns.ends (begun_laterStages rfl))
      (laterStages_vacant laid ((after duration).wellFormed wf₁) nothing)) ?_
    rintro r es₂ m₂ ⟨⟨-, begun⟩, left⟩ keeps shuns failure hf hs
    have sub : es₂ ⊆ opening (answer o) .clean m ++ es₁ ++ closing (answer o) .clean duration m₁ ++ es₂ :=
      List.subset_append_right _ _
    have hstage := begun failure hf
    exact {
      later := fun _ => ⟨_, es₂, rfl, by simp [closing],
        left (keeps.mono sub) (shuns.mono sub) failure hf hs⟩
      removed := fun h => (hstage h).elim
      missing := fun h => (hstage h).elim
      stale := fun h => (hstage h).elim }

/-- What is done after the stages of a run lets no path lead anywhere. -/
theorem run_vacant (laid : s.Laid) (honest : o.Honest) (wf : m.disk.root.WellFormed)
    (previous : RunState) :
    (run s Toolchain.outside previous).Ends (answer o) m fun r es m' =>
      o.KeepsForm es → o.Shuns s.output es → ∀ failure, r.1 = .error failure →
        failure.stage ≠ .reconcile → Vacant o s m failure.stage es m' := by
  have clock : Same m (answer o .clock m).2 := same_quiet (q := .clock) trivial o m
  have wf₀ := clock.wellFormed wf
  refine ends_run (((returns_stages _ previous).ends.and ((ends_wellFormed _ wf₀).and
    (stages_vacant laid honest wf₀ _ previous))).mono ?_)
  rintro ⟨result, progress⟩ es m₁ ⟨known, formed, vacant⟩
  have asks : (cleanUp s progress.workspace).Only fun q => q.Tidies [] ∧ q ≠ .unlink s.output := by
    rcases known with none | ⟨some, -⟩
    · rw [none]
      trivial
    · rw [some]
      exact only_cleanUp s _ (fun _ _ => ⟨.inl (.log _ _), by simp⟩) fun q hq =>
        ⟨.inl hq.sheds, hq.ne_unlink laid.workspace_ne⟩
  have emptied : (cleanUp s progress.workspace).Ends (answer o) m₁ fun _ es₁ m₂ =>
      m₁.disk.root.WellFormed → o.KeepsForm es₁ → o.Shuns s.output es₁ →
        m₁.Missing s.output → m₂.Missing s.output := fun wf₁ keeps shuns nothing =>
    (missing_run (asks.mono fun _ h => h.1) laid.written.2 laid.output wf₁ nothing keeps
      shuns).resolve_right not_unveils_nil
  have untouched : (cleanUp s progress.workspace).Ends (answer o) m₁ fun _ _ m₂ =>
      progress.workspace = none → Same m₁ m₂ := fun none => by
    rw [none]
    exact .refl _
  refine Ends.mono ((asks.not_unlinked fun h => h.2 rfl).and (emptied.and untouched)) ?_
  rintro _ es₁ m₂ ⟨asked₁, emptied, untouched⟩
  have logs : (logOutcome result).Only fun q => q ≠ .unlink s.output :=
    only_logOutcome result fun _ _ => by simp
  refine Ends.mono ((logs.not_unlinked fun h => h rfl).and (logOutcome_same result)) ?_
  rintro _ es₂ m₃ ⟨asked₂, same, -⟩ keeps shuns failure hf hs
  have sub : es ⊆ (.clock, m) :: (es ++ (es₁ ++ es₂)) := fun e he => by simp [he]
  have sub₁ : es₁ ⊆ (.clock, m) :: (es ++ (es₁ ++ es₂)) := fun e he => by simp [he]
  have vacant := vacant (keeps.mono sub) (shuns.mono sub) failure hf hs
  have wf₁ := formed (keeps.mono sub)
  have ended : Vacant o s (answer o .clock m).2 failure.stage (es ++ (es₁ ++ es₂)) m₃ := by
    refine vacant.append ?_ (fun nothing => ?_) fun hc => ?_
    · exact fun h => (unlinked_append.mp h).elim asked₁ asked₂
    · exact same.missing (emptied wf₁ (keeps.mono sub₁) (shuns.mono sub₁) nothing)
    · exact (untouched (known.resolve_right fun begun => begun.2 failure hf hc)).trans same
  have unasked : ¬ Unlinked o s.output [(.clock, m)] := by simp [Unlinked]
  exact ended.after clock unasked

/-- A run that has failed before its last stage leaves nothing at the output, unless the old archive was
not removed in the first stage, or a directory that was made has let the output lead somewhere. Where no
link stands above the output and the workspace, it is known exactly when something is left. -/
theorem failed_run_vacates (accepted : s.Accepted) (honest : o.Honest) (wf : m.disk.root.WellFormed)
    (previous : RunState) :
    (run s Toolchain.outside previous).Ends (answer o) m fun r es m' =>
      o.KeepsForm es → o.Shuns s.output es → ∀ failure, r.1 = .error failure →
        failure.stage ≠ .reconcile → Vacant o s m failure.stage es m' ∧
          (m.disk.Guarded s → o.Spared s es → Leaves o s m failure.stage es m') := by
  have leaves : (run s Toolchain.outside previous).Ends (answer o) m fun r es m' =>
      m.disk.Guarded s → o.Spared s es → ∀ failure, r.1 = .error failure →
        failure.stage ≠ .reconcile → Leaves o s m failure.stage es m' :=
    fun guarded => failed_run_leaves accepted guarded previous
  refine ((run_vacant accepted.laid honest wf previous).and leaves).mono ?_
  rintro r es m' ⟨vacant, leaves⟩ keeps shuns failure hf hs
  exact ⟨vacant keeps shuns failure hf hs, fun guarded spared => leaves guarded spared failure hf hs⟩

/-- An archive of an earlier run, next to a file where a directory is expected. -/
def old : Machine := small [("file", .file 0 0 .empty), ("out.zip", .file 1 0 .empty)]

/-- An archive of an earlier run, behind a link that leads through the directory of the installer. -/
def linked : Machine := small [("x", .dir [(Bytes.ofString "out.zip", .file 0 0 .empty)]),
  ("l", .link (Bytes.ofString "/work/target/python/../../../x"))]

/-- The output behind the link, and an installer that has a directory of its own in the layer. -/
def behindLink : Settings := { Settings.small "/work" "/l/out.zip" with
  layerPrefix := some (.ofString "python"), keepWorkspace := true }

/-- Collaborators that build a wheel and do not install it. -/
def unwilling : Outside := .scripted fun
  | .installInto .. => { error := some (.other "refused") }
  | _ => { files := [.file (.ofString "small-1-py3-none-any.whl") 0o644 .empty] }

set_option maxRecDepth 100000 in
/-- A workspace below a file cannot be removed, and then an old archive is not removed either. An old
archive behind a link into the layer is not found in the first stage, and it is found when the directory
for the installer has been made. -/
theorem old_archive_outlives_failed_run :
    ((Settings.small "/file/work" "/out.zip").Accepted ∧
      (run (.small "/file/work" "/out.zip") Toolchain.outside .pending).Ends (answer (.small []))
        old fun r es m' => ∃ failure, r.1 = .error failure ∧ failure.stage = .clean ∧
          Leaves (.small []) (.small "/file/work" "/out.zip") old failure.stage es m' ∧
            m'.disk.get? [Bytes.ofString "out.zip"] = some (.file 1 0 .empty)) ∧
    behindLink.Accepted ∧
      (run behindLink Toolchain.outside .pending).Ends (answer unwilling) linked fun r es m' =>
        ∃ failure, r.1 = .error failure ∧ failure.stage = .materialize ∧
          Vacant unwilling behindLink linked failure.stage es m' ∧
            linked.Missing (.ofString "/l/out.zip") ∧ ¬ m'.Missing (.ofString "/l/out.zip") := by
  have accepted : (Settings.small "/file/work" "/out.zip").Accepted :=
    ⟨.small "/file/work" "/out.zip", .small [], small [], by decide +kernel⟩
  have accepted' : behindLink.Accepted :=
    ⟨{ Options.small "/work" "/l/out.zip" with
      layerPrefix := some (.ofString "python"), keepWorkspace := true }, unwilling, linked,
      by decide +kernel⟩
  have honest : (Outside.small []).Honest := fun _ h => by cases h
  have honest' : unwilling.Honest := fun _ h => by cases h
  have guarded : old.disk.Guarded (.small "/file/work" "/out.zip") := by decide +kernel
  refine ⟨⟨accepted, ?_⟩, accepted', ?_⟩
  · have evaluated : (run (.small "/file/work" "/out.zip") Toolchain.outside .pending).Ends
        (answer (.small [])) old fun r es m' =>
          ((Outside.small []).KeepsForm es ∧ (Outside.small []).Shuns (.ofString "/out.zip") es ∧
            (Outside.small []).Spared (.small "/file/work" "/out.zip") es) ∧
          r.1.mapError (·.stage) = .error .clean ∧
            m'.disk.get? [Bytes.ofString "out.zip"] = some (.file 1 0 .empty) := by
      unfold Ends
      decide +kernel
    have vacates := failed_run_vacates (m := old) accepted honest (by decide +kernel) .pending
    refine (vacates.and evaluated).mono ?_
    rintro ⟨failure | _, state⟩ es m' ⟨vacates, ⟨keeps, shuns, spared⟩, hs, there⟩
    case ok => cases hs
    obtain hs : failure.stage = .clean := Except.error.inj hs
    exact ⟨failure, rfl, hs, (vacates keeps shuns failure rfl (by simp [hs])).2 guarded spared, there⟩
  · have evaluated : (run behindLink Toolchain.outside .pending).Ends (answer unwilling) linked
        fun r es m' => (unwilling.KeepsForm es ∧ unwilling.Shuns (.ofString "/l/out.zip") es) ∧
          r.1.mapError (·.stage) = .error .materialize ∧
            linked.Missing (.ofString "/l/out.zip") ∧ ¬ m'.Missing (.ofString "/l/out.zip") := by
      unfold Ends
      decide +kernel
    have vacates := failed_run_vacates (m := linked) accepted' honest' (by decide +kernel) .pending
    refine (vacates.and evaluated).mono ?_
    rintro ⟨failure | _, state⟩ es m' ⟨vacates, ⟨keeps, shuns⟩, hs, nowhere, found⟩
    case ok => cases hs
    obtain hs : failure.stage = .materialize := Except.error.inj hs
    exact ⟨failure, rfl, hs, (vacates keeps shuns failure rfl (by simp [hs])).1, nowhere, found⟩

end Pipeline

end LayerPack
