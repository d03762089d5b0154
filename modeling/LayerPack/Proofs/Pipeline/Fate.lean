import LayerPack.Proofs.Disk.Decide
import LayerPack.Proofs.Machine.Answers
import LayerPack.Proofs.Pipeline.Requests
import LayerPack.Proofs.Pipeline.Steps
import LayerPack.Proofs.Settings.Accepted

/-! What becomes of the output before the archive is written, and after that, where no link stands on the
way to it. Of all the requests of a run only two can tell: the removal of an old archive, at the end of
the first stage, and the making of a directory in its place. What is asked after the archive has been
written leaves the output alone, also the removal of the workspace. -/
namespace LayerPack

open Program Machine

/-! ### No link on the way

The requests of a run keep links away from the way to the workspace and to the output, if its
collaborators do. -/

section

variable {s : Settings} {d d' : Disk} {o : Outside} {m m' : Machine}

/-- No link stands above the workspace or the output, and the disk is well formed. -/
structure Disk.Guarded (s : Settings) (d : Disk) : Prop where
  wellFormed : d.root.WellFormed
  workspace : d.root.NoLinkAbove s.workspace.names
  output : d.root.NoLinkAbove s.output.names

theorem Disk.Tame.guarded (h : d.Tame d') (hg : d.Guarded s) : d'.Guarded s :=
  ⟨h.wellFormed hg.wellFormed, (h.noNewLink hg.wellFormed).noLinkAbove hg.workspace,
    (h.noNewLink hg.wellFormed).noLinkAbove hg.output⟩

theorem Machine.Same.guarded (h : Same m m') (hg : m.disk.Guarded s) :
    m'.disk.Guarded s := h.disk ▸ hg

theorem Machine.Same.look (h : Same m m') (place : Place) : m'.disk.look place = m.disk.look place :=
  congrArg (·.look place) h.disk

instance (s : Settings) (d : Disk) : Decidable (d.Guarded s) :=
  decidable_of_iff (d.root.WellFormed ∧ d.root.NoLinkAbove s.workspace.names ∧
    d.root.NoLinkAbove s.output.names)
    ⟨fun h => ⟨h.1, h.2.1, h.2.2⟩, fun h => ⟨h.1, h.2, h.3⟩⟩

/-- A change that puts no link above the workspace or the output, and leaves alone what stands at the
output. -/
def Disk.Spares (s : Settings) (d d' : Disk) : Prop :=
  d.Guarded s → d'.Guarded s ∧ d'.look s.output.names = d.look s.output.names

instance (d d' : Disk) : Decidable (d.Spares s d') := inferInstanceAs (Decidable (_ → _ ∧ _))

/-- Whatever they are asked, the collaborators spare the output. -/
def Outside.Spares (o : Outside) (s : Settings) : Prop :=
  ∀ call (m : Machine), m.disk.Spares s (o.collaborate call m).2.disk

def Request.isCall : Request → Bool
  | .collaborate .. => true
  | _ => false

/-- In what they were asked, the collaborators spared the output. -/
def Outside.Spared (o : Outside) (s : Settings) (es : List (Request × Machine)) : Prop :=
  ∀ e ∈ es, e.1.isCall = true → e.2.disk.Spares s (answer o e.1 e.2).2.disk

instance (es : List (Request × Machine)) : Decidable (o.Spared s es) :=
  inferInstanceAs (Decidable (∀ e ∈ es, _ → _))

/-- The same collaborators, except that one that would not spare the output never answers. -/
def Outside.sparing (o : Outside) (s : Settings) : Outside :=
  { o with collaborate := fun call m =>
      if m.disk.Spares s (o.collaborate call m).2.disk then o.collaborate call m else (none, m) }

theorem Outside.sparing_spares (o : Outside) (s : Settings) : (o.sparing s).Spares s := by
  intro call m
  simp only [sparing]
  split
  · assumption
  · exact fun hg => ⟨hg, rfl⟩

theorem Machine.answer_sparing {q : Request}
    (h : q.isCall = true → m.disk.Spares s (answer o q m).2.disk) :
    answer (o.sparing s) q m = answer o q m := by
  cases q with
  | collaborate call deadline =>
    have same : (o.sparing s).collaborate call ((m.step (o.delay m.ticks)).record call) =
        o.collaborate call ((m.step (o.delay m.ticks)).record call) :=
      if_pos (disk_collaborate call deadline ▸ h rfl)
    cases deadline with
    | none => exact congrArg (forever endless) same
    | some limit => exact congrArg (waited limit) same
  | run command deadline => cases deadline <;> rfl
  | _ => rfl

/-- What holds at the end if the collaborators spare the output whatever they are asked holds if they
spare it in this run. -/
theorem Program.Ends.spared {α : Type} {p : Program α}
    {Q : α → List (Request × Machine) → Machine → Prop}
    (h : p.Ends (answer (o.sparing s)) m Q) :
    p.Ends (answer o) m fun r es m' => o.Spared s es → Q r es m' :=
  fun spared => h.congr fun e he => answer_sparing (spared e he)

namespace Request

/-- A request that has no business with the output. -/
inductive Aside (s : Settings) : Request → Prop
  | quiet {q : Request} (h : q.Quiet) : Aside s q
  | log (level : Level) (text : String) : Aside s (.log level text)
  | unlink : Aside s (.unlink s.workspace)
  | removeTree : Aside s (.removeTree s.workspace)
  | collaborate (call : Call) (deadline : Option Nat) : Aside s (.collaborate call deadline)

theorem Removes.aside {q : Request} (h : q.Removes s.workspace) : q.Aside s := by
  rcases h with h | rfl | rfl
  · exact .quiet h
  · exact .unlink
  · exact .removeTree

end Request

/-- A request without business with the output keeps the guard, and the output. -/
theorem Machine.aside_step {q : Request} (laid : s.Laid) (spares : o.Spares s)
    (hq : q.Aside s) (hg : m.disk.Guarded s) :
    (answer o q m).2.disk.Guarded s ∧
      (answer o q m).2.disk.look s.output.names = m.disk.look s.output.names := by
  cases hq with
  | quiet h => exact ⟨(same_quiet h o m).guarded hg, (same_quiet h o m).look _⟩
  | log level text => exact ⟨(same_log level text).guarded hg, (same_log level text).look _⟩
  | unlink =>
    rcases changed_unlink o m s.workspace with ⟨-, hop, -⟩ | ⟨-, same⟩
    · refine ⟨(Disk.unlink_tame hop).guarded hg, ?_⟩
      exact Disk.unlink_changedAt laid.workspace hg.workspace hop _ laid.apart
    · exact ⟨same.guarded hg, same.look _⟩
  | removeTree =>
    obtain ⟨h | h, -⟩ := removeTree_cases o m s.workspace <;> rw [h]
    · refine ⟨Disk.removeTree_tame.guarded hg, ?_⟩
      have changed : m.disk.ChangedAt s.workspace.names
          (m.disk.removeTree m.cwd (.ofNames s.workspace.names)).2 :=
        Disk.removeTree_changedAt laid.workspace.proper laid.notRoot hg.workspace
      rw [← laid.written.1] at changed
      exact changed _ laid.apart
    · exact ⟨hg, rfl⟩
  | collaborate call deadline =>
    rw [disk_collaborate]
    exact spares call _ hg

/-- What has no business with the output keeps it. -/
theorem Machine.aside_run {α : Type} {p : Program α} (laid : s.Laid) (spares : o.Spares s)
    (hp : p.Only (Request.Aside s)) (hg : m.disk.Guarded s) :
    p.Ends (answer o) m fun _ _ m' =>
      m'.disk.Guarded s ∧ m'.disk.look s.output.names = m.disk.look s.output.names := by
  refine hp.run_inv (I := fun (m' : Machine) =>
    m'.disk.Guarded s ∧ m'.disk.look s.output.names = m.disk.look s.output.names) ?_ ⟨hg, rfl⟩
  intro q m' hq h
  obtain ⟨hg', hl⟩ := aside_step laid spares hq h.1
  exact ⟨hg', hl.trans h.2⟩

end

/-! ### The removal of an old archive -/

section

variable {s : Settings} {o : Outside} {m m' m'' : Machine} {es es' : List (Request × Machine)}

/-- Some request has made a directory where nothing was. -/
def MadeAt (o : Outside) (place : Place) (es : List (Request × Machine)) : Prop :=
  ∃ p before, (.mkdir p, before) ∈ es ∧ before.disk.get? place = none ∧
    (answer o (.mkdir p) before).2.disk.get? place ≠ none

/-- Some request has removed what a path names. -/
def Unlinked (o : Outside) (p : Path) (es : List (Request × Machine)) : Prop :=
  ∃ before, (.unlink p, before) ∈ es ∧ (answer o (.unlink p) before).1 = .ok ()

theorem madeAt_append {place : Place} :
    MadeAt o place (es ++ es') ↔ MadeAt o place es ∨ MadeAt o place es' := by
  simp only [MadeAt, List.mem_append, or_and_right, exists_or]

theorem unlinked_append {p : Path} : Unlinked o p (es ++ es') ↔ Unlinked o p es ∨ Unlinked o p es' := by
  simp only [Unlinked, List.mem_append, or_and_right, exists_or]

theorem madeAt_mkdir {place : Place} {p : Path} : MadeAt o place [(.mkdir p, m)] ↔
    m.disk.get? place = none ∧ (answer o (.mkdir p) m).2.disk.get? place ≠ none := by
  refine ⟨?_, fun h => ⟨p, m, List.mem_singleton_self _, h⟩⟩
  rintro ⟨p, before, he, h⟩
  cases List.mem_singleton.mp he
  exact h

theorem not_madeAt_unlink {place : Place} {p : Path} : ¬ MadeAt o place [(.unlink p, m)] := by
  simp [MadeAt]

theorem unlinked_unlink {p : Path} :
    Unlinked o p [(.unlink p, m)] ↔ (answer o (.unlink p) m).1 = .ok () := by
  simp [Unlinked]

theorem not_unlinked_mkdir {p q : Path} : ¬ Unlinked o p [(.mkdir q, m)] := by
  simp [Unlinked]

/-- What has become of a path that leads to a place. -/
structure Fate (o : Outside) (p : Path) (place : Place) (m : Machine)
    (es : List (Request × Machine)) (m' : Machine) : Prop where
  gone : m'.disk.get? place = none ↔
    (m.disk.get? place = none ∨ Unlinked o p es) ∧ ¬ MadeAt o place es
  made : MadeAt o place es → m'.disk.look place = some (.dir [])
  dir : m.disk.look place = some (.dir []) → m'.disk.look place = some (.dir [])

namespace Fate

variable {p : Path} {place : Place}

theorem append (h : Fate o p place m es m') (h' : Fate o p place m' es' m'') :
    Fate o p place m (es ++ es') m'' := by
  refine ⟨?_, fun hm => ?_, fun hd => h'.dir (h.dir hd)⟩
  · rw [h'.gone, h.gone, madeAt_append, unlinked_append]
    by_cases hm : MadeAt o place es
    · have dir := h'.dir (h.made hm)
      have : ¬ m''.disk.get? place = none := fun hn => by
        rw [Disk.look, Node.look_eq_none.mpr hn] at dir
        cases dir
      rw [h'.gone, h.gone] at this
      simpa [hm] using this
    · simp [hm, or_assoc]
  · exact (madeAt_append.mp hm).elim (fun hm => h'.dir (h.made hm)) h'.made

/-- Nothing has become of it as long as no directory is made and nothing is removed. -/
theorem still (hm : ¬ MadeAt o place es) (hu : ¬ Unlinked o p es)
    (hl : m'.disk.look place = m.disk.look place) : Fate o p place m es m' := by
  refine ⟨?_, fun h => (hm h).elim, hl.trans⟩
  rw [← Disk.get?_root, ← Node.look_eq_none, ← Disk.get?_root, ← Node.look_eq_none]
  change m'.disk.look place = none ↔ (m.disk.look place = none ∨ _) ∧ _
  simp [hl, hm, hu]

end Fate

namespace Request

/-- A request before the archive is written: one that has no business with the output, the making
of a directory, or the removal of an old archive. -/
def Before (s : Settings) (q : Request) : Prop :=
  q.Aside s ∨ (∃ p, q = .mkdir p) ∨ q = .unlink s.output

theorem Quiet.before {q : Request} (h : q.Quiet) : q.Before s := .inl (.quiet h)

theorem Makes.before {q : Request} {p : Path} (h : q.Makes p) : q.Before s := by
  rcases h with h | ⟨up, -, rfl⟩
  · exact h.before
  · exact .inr (.inl ⟨up, rfl⟩)

theorem Cleans.before {q : Request} (h : q.Cleans s) : q.Before s := by
  rcases h with h | h | h | ⟨-, h⟩ | rfl
  · exact .inl h.aside
  · exact h.before
  · exact h.before
  · exact h.before
  · exact .inr (.inr rfl)

end Request

/-- One request keeps the guard, and what becomes of the output is told by it. -/
theorem Machine.before_step {q : Request} (laid : s.Laid) (spares : o.Spares s) (hq : q.Before s)
    (hg : m.disk.Guarded s) : (answer o q m).2.disk.Guarded s ∧
      Fate o s.output s.output.names m [(q, m)] (answer o q m).2 := by
  rcases hq with hq | ⟨p, rfl⟩ | rfl
  · obtain ⟨hg', hl⟩ := aside_step laid spares hq hg
    refine ⟨hg', .still ?_ ?_ hl⟩
    · rintro ⟨p, before, he, -⟩
      cases List.mem_singleton.mp he
      cases hq
      contradiction
    · rintro ⟨before, he, -⟩
      obtain ⟨rfl, rfl⟩ := Prod.mk.inj (List.mem_singleton.mp he)
      generalize hp : s.output = p at hq
      cases hq with
      | quiet h => exact h
      | unlink => exact laid.workspace_ne hp.symm
  · have guarded : (answer o (.mkdir p) m).2.disk.Guarded s := by
      rcases changed_mkdir o m p with ⟨-, hop, -⟩ | ⟨-, same⟩
      · exact (Disk.mkdir_tame hop).guarded hg
      · exact same.guarded hg
    have looks : (answer o (.mkdir p) m).2.disk.look s.output.names = m.disk.look s.output.names ∨
        m.disk.get? s.output.names = none ∧
          (answer o (.mkdir p) m).2.disk.look s.output.names = some (.dir []) := by
      rcases changed_mkdir o m p with ⟨-, hop, -⟩ | ⟨-, same⟩
      · exact Disk.look_mkdir hop _
      · exact .inl (same.look _)
    refine ⟨guarded, ?_⟩
    rcases looks with hl | ⟨hn, hd⟩
    · refine .still (fun h => ?_) not_unlinked_mkdir hl
      obtain ⟨hn, hs⟩ := madeAt_mkdir.mp h
      exact hs (Node.look_eq_none.mp (hl.trans (Node.look_eq_none.mpr hn)))
    · have there : (answer o (.mkdir p) m).2.disk.get? s.output.names ≠ none := fun h => by
        rw [Disk.look, Node.look_eq_none.mpr h] at hd
        cases hd
      have made := madeAt_mkdir.mpr ⟨hn, there⟩
      exact ⟨iff_of_false there fun h => h.2 made, fun _ => hd, fun _ => hd⟩
  · rcases changed_unlink o m s.output with ⟨hr, hop, -⟩ | ⟨⟨e, hr⟩, same⟩
    · obtain ⟨hn, hd⟩ := Disk.unlink_gone hg.wellFormed laid.output hg.output hop
      refine ⟨(Disk.unlink_tame hop).guarded hg, ?_, fun h => ?_, fun h => (hd h).elim⟩
      · exact iff_of_true hn ⟨.inr (unlinked_unlink.mpr hr), not_madeAt_unlink⟩
      · exact (not_madeAt_unlink h).elim
    · refine ⟨same.guarded hg, .still not_madeAt_unlink (fun h => ?_) (same.look _)⟩
      cases hr.symm.trans (unlinked_unlink.mp h)

/-- What has become of the output in a program that comes before the archive. -/
theorem Machine.before_run {α : Type} {p : Program α} (laid : s.Laid) (spares : o.Spares s)
    (hp : p.Only (Request.Before s)) (hg : m.disk.Guarded s) :
    p.Ends (answer o) m fun _ es m' =>
      m'.disk.Guarded s ∧ Fate o s.output s.output.names m es m' := by
  refine hp.run_history (H := fun m es m' => m.disk.Guarded s →
    m'.disk.Guarded s ∧ Fate o s.output s.output.names m es m') ?_ ?_ m hg
  · exact fun m hg => ⟨hg, .still (by simp [MadeAt]) (by simp [Unlinked]) rfl⟩
  · intro q m es m' hq rest hg
    obtain ⟨hg', fate⟩ := before_step laid spares hq hg
    exact ⟨(rest hg').1, fate.append (rest hg').2⟩

end

/-! ### The first stage -/

variable {s : Settings} {o : Outside} {m : Machine}

/-- No failure pretends that something is missing. -/
def Outside.Honest (o : Outside) : Prop := ∀ n, o.fault n ≠ some .noEntry

theorem Machine.stat_missing (honest : o.Honest) {follow : Bool} {p : Path}
    (h : (answer o (.stat follow p) m).1 = .error .noEntry) :
    m.disk.stat m.cwd follow p = .error .noEntry := by
  change (reading (o.fault m.ticks) _ (m.disk.stat m.cwd follow p)).1 = _ at h
  have := honest m.ticks
  cases hf : o.fault m.ticks with
  | none =>
    rw [hf] at h
    exact h
  | some e =>
    rw [hf] at h this
    cases h
    exact (this rfl).elim

namespace Pipeline

/-- If the removal of an old archive succeeds, there was none, or it was removed. -/
theorem removeStale_ends (honest : o.Honest) (output : Path) (deadline : Option Nat) :
    (removeStaleArchive output deadline).Ends (answer o) m fun r es _ => r = .ok () →
      m.disk.stat m.cwd false output = .error .noEntry ∨ Unlinked o output es := by
  refine Work.ends_bind.mpr (ends_await (fun _ _ _ h => by cases h) fun m₁ same => ?_)
  refine ends_request.mpr fun es₁ m₂ _ _ => ⟨?_, fun h => by cases h⟩
  rcases hr : (answer o (.stat false output) m₁).1 with e | status
  · dsimp only
    split
    next he =>
      subst he
      have hstat := stat_missing honest hr
      rw [same.disk, same.cwd] at hstat
      exact fun _ => .inl hstat
    next => exact fun h => by cases h
  · refine Work.ends_bind.mpr (Work.ends_failIf.mpr ?_)
    cases decide (status.kind = .dir) with
    | true => exact fun h => by cases h
    | false =>
      refine Work.ends_bind.mpr (ends_await (fun _ _ _ h => by cases h) fun m₃ _ => ?_)
      refine ends_request.mpr fun es₂ m₄ hsub _ => ⟨?_, fun h => by cases h⟩
      refine Work.ends_bind.mpr (Work.ends_ofExcept.mpr ?_)
      rcases hu : (answer o (.unlink output) m₃).1 with e | ⟨⟩
      · exact fun h => by cases h
      · refine fun _ => .inr ⟨m₃, ?_, hu⟩
        have := hsub (List.mem_singleton_self _)
        simp [this]

/-- After the first stage there is no old archive any more. -/
theorem clean_ends (laid : s.Laid) (spares : o.Spares s) (hg : m.disk.Guarded s)
    (deadline : Option Nat) :
    (clean s deadline).Ends (answer o) m fun r es _ => ∀ workspace, r = .ok workspace →
      workspace = ⟨s.workspace⟩ ∧
        (o.Honest → m.disk.get? s.output.names = none ∨ Unlinked o s.output es) := by
  have before {α : Type} {work : Work α} (hw : work.Only (Request.Cleans s)) :
      work.Only (Request.Before s) := hw.mono fun _ h => h.before
  refine fun workspace hw => ⟨(clean_yields s deadline).run _ _ workspace hw, fun honest => ?_⟩
  revert workspace
  refine (Work.ends_bind (Q := fun r es _ => ∀ workspace, r = .ok workspace →
    m.disk.get? s.output.names = none ∨ Unlinked o s.output es)).mpr ?_
  refine (before_run laid spares (before (only_prepare s) deadline) hg).mono
    fun r es₁ m₁ ⟨hg₁, fate₁⟩ => ?_
  cases r with
  | error stop => exact fun _ h => by cases h
  | ok workspace =>
  refine Work.ends_bind.mpr ((before_run laid spares (before (makeDist_cleans s) deadline) hg₁).mono
    fun r es₂ m₂ ⟨hg₂, fate₂⟩ => ?_)
  cases r with
  | error stop => exact fun _ h => by cases h
  | ok =>
  refine Work.ends_bind.mpr ((removeStale_ends honest s.output deadline).mono
    fun r es₃ m₃ removed => ?_)
  cases r with
  | error stop => exact fun _ h => by cases h
  | ok =>
  have fate := fate₁.append fate₂
  rintro _ -
  simp only [unlinked_append]
  rcases removed rfl with hstat | hu
  · rw [laid.written.2] at hstat
    have := (fate.gone.mp (Disk.missing_of_stat laid.output.proper hg₂.output hstat)).1
    rw [unlinked_append] at this
    exact this.imp_right fun h => h.imp_right .inl
  · exact .inr (.inr (.inr (.inl hu)))

end Pipeline

end LayerPack
