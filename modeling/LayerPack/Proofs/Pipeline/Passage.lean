import LayerPack.Proofs.Archive.Residue
import LayerPack.Proofs.Disk.Decide
import LayerPack.Proofs.Host.Growth
import LayerPack.Proofs.Settings.Grounds

/-! What a run leaves alone. Every request of it but those of archiving keeps the ways to what it owns
free of links, as long as the collaborators do, and so it changes nothing but what it owns and the
missing directories above. -/
namespace LayerPack

open Program Machine

variable {s : Settings} {o : Outside} {m m' m'' : Machine} {es es' : List (Request × Machine)}
  {place : Place} {p : Path} {ways ways' : List Path} {G G' G'' : Disk → Prop} {q : Request}

/-- A change that puts no link above the path. -/
def Disk.KeepsClear (p : Path) (d d' : Disk) : Prop :=
  d.root.NoLinkAbove p.names → d'.root.NoLinkAbove p.names

instance (p : Path) (d d' : Disk) : Decidable (d.KeepsClear p d') :=
  inferInstanceAs (Decidable (_ → _))

/-- The builder and the installer change nothing but the directories that they are given, and the
environment changes nothing. -/
def Call.Confined (d d' : Disk) : Call → Prop
  | build _ dist => d.ChangedAt dist.names d'
  | installInto _ target => d.ChangedAt target.names d'
  | isInstalled _ | uninstall _ | install _ => d' = d

/-- What is expected of a call: the builder changes nothing but the directory of wheels and puts no
link above the workspace, the output or the directory of the installer; the installer changes
nothing but this directory; the environment puts no link above the workspace. -/
def Call.Behaves (s : Settings) (d d' : Disk) : Call → Prop
  | build _ dist => d.ChangedAt dist.names d' ∧
      ∀ p ∈ [s.workspace, s.output, s.installDir], d.KeepsClear p d'
  | installInto _ target => d.ChangedAt target.names d'
  | isInstalled _ | uninstall _ | install _ => d.KeepsClear s.workspace d'

/-- In what they were asked, the collaborators have done what is expected, and left the disk well
formed. -/
def Outside.Behaves (o : Outside) (s : Settings) (es : List (Request × Machine)) : Prop :=
  ∀ call deadline before, (.collaborate call deadline, before) ∈ es →
    call.Behaves s before.disk (answer o (.collaborate call deadline) before).2.disk ∧
      (before.disk.root.WellFormed →
        (answer o (.collaborate call deadline) before).2.disk.root.WellFormed)

theorem Outside.Behaves.mono (h : o.Behaves s es') (sub : es ⊆ es') : o.Behaves s es :=
  fun call deadline before he => h call deadline before (sub he)

/-- The collaborators keep to their directories. -/
def Outside.Confined (o : Outside) : Prop :=
  ∀ (call : Call) deadline before,
    call.Confined before.disk (answer o (.collaborate call deadline) before).2.disk

/-- Collaborators that keep to their directories behave as long as they put no link in the way. -/
theorem Outside.Confined.behaves (h : o.Confined) (form : o.KeepsForm es)
    (clear : ∀ e ∈ es, ∀ p ∈ [s.workspace, s.output, s.installDir],
      e.2.disk.KeepsClear p (answer o e.1 e.2).2.disk) : o.Behaves s es := by
  intro call deadline before he
  refine ⟨?_, form _ he rfl⟩
  have confined := h call deadline before
  have clear := clear _ he
  cases call with
  | build => exact ⟨confined, clear⟩
  | installInto => exact confined
  | isInstalled | uninstall | install => exact clear s.workspace (by simp)

theorem Outside.stocking_confined (built : Entries) : (Outside.stocking built).Confined := by
  intro call deadline before
  rw [disk_collaborate]
  cases call with
  | build | installInto => exact Disk.changedAt_put _ _ _
  | isInstalled | uninstall | install => rfl

/-- Others have had a hand in what stands at the place: the environment has changed it, or its removal
was refused. -/
def Outside.Meddles (o : Outside) (place : Place) (es : List (Request × Machine)) : Prop :=
  (∃ call deadline before, (.collaborate call deadline, before) ∈ es ∧ call.isEnvironment = true ∧
    (answer o (.collaborate call deadline) before).2.disk.look place ≠ before.disk.look place) ∨
  o.Refuses place es

theorem Outside.Meddles.mono (h : o.Meddles place es) (sub : es ⊆ es') : o.Meddles place es' := by
  refine h.imp ?_ fun refused => refused.mono sub
  exact fun ⟨call, deadline, before, he, hc⟩ => ⟨call, deadline, before, sub he, hc⟩

/-- Where nothing is refused and the environment changes nothing, nobody meddles. -/
theorem Outside.Confined.not_meddles (h : o.Confined) (allows : ∀ tick, o.fault tick = none) :
    ¬ o.Meddles place es := by
  rintro (⟨call, deadline, before, -, hc, changed⟩ | ⟨p, before, -, -, refused⟩)
  · refine changed ?_
    have same := h call deadline before
    cases call with
    | build | installInto => cases hc
    | isInstalled | uninstall | install => exact congrArg (Disk.look · place) same
  · exact refused (allows _)

namespace Disk

variable {d d' d'' : Disk}

/-- A well-formed disk with no link above these paths. -/
structure Open (ways : List Path) (d : Disk) : Prop where
  wellFormed : d.root.WellFormed
  clear : ∀ p ∈ ways, d.root.NoLinkAbove p.names

theorem Open.mono (h : d.Open ways) (sub : ways' ⊆ ways) : d.Open ways' :=
  ⟨h.wellFormed, fun p hp => h.clear p (sub hp)⟩

theorem Tame.open (h : d.Tame d') (hd : d.Open ways) : d'.Open ways :=
  ⟨h.wellFormed hd.wellFormed, fun p hp => (h.noNewLink hd.wellFormed).noLinkAbove (hd.clear p hp)⟩

/-- At the place nothing has changed, but a directory may have been made there that leads to what the
run owns. -/
def LeftAt (s : Settings) (place : Place) (d d' : Disk) : Prop :=
  d'.look place = d.look place ∨
    d.get? place = none ∧ d'.look place = some (.dir []) ∧ s.LeadsBy place

instance (s : Settings) (place : Place) (d d' : Disk) : Decidable (d.LeftAt s place d') :=
  inferInstanceAs (Decidable (_ ∨ _ ∧ _ ∧ _))

theorem LeftAt.trans (h : d.LeftAt s place d') (h' : d'.LeftAt s place d'') :
    d.LeftAt s place d'' := by
  rcases h with h | ⟨hn, hd, leads⟩
  · rcases h' with h' | ⟨hn, hd, leads⟩
    · exact .inl (h'.trans h)
    · exact .inr ⟨Node.look_eq_none.mp (h.symm.trans (Node.look_eq_none.mpr hn)), hd, leads⟩
  · rcases h' with h' | ⟨hn', -, -⟩
    · exact .inr ⟨hn, h'.trans hd, leads⟩
    · rw [look, Node.look_eq_none.mpr hn'] at hd
      cases hd

end Disk

/-- Where nobody has meddled, nothing has changed but in what the run owns, and on the way there. -/
def Framed (s : Settings) (o : Outside) (m : Machine) (es : List (Request × Machine))
    (m' : Machine) : Prop :=
  ∀ place, ¬ s.Owns place → ¬ o.Meddles place es → m.disk.LeftAt s place m'.disk

theorem Framed.append (h : Framed s o m es m') (h' : Framed s o m' es' m'') :
    Framed s o m (es ++ es') m'' := fun place aside alone =>
  (h place aside fun hm => alone (hm.mono (List.subset_append_left _ _))).trans
    (h' place aside fun hm => alone (hm.mono (List.subset_append_right _ _)))

/-- A part of a run that opens no file. If the collaborators behave, it leads from disks of one kind
to disks of another. -/
structure Passage (s : Settings) (o : Outside) (G G' : Disk → Prop) (m : Machine)
    (es : List (Request × Machine)) (m' : Machine) : Prop where
  unopened : ∀ place, ¬ Opens o place es
  kept : o.Behaves s es → G m.disk → G' m'.disk ∧ Framed s o m es m'

namespace Passage

theorem append (h : Passage s o G G' m es m') (h' : Passage s o G' G'' m' es' m'') :
    Passage s o G G'' m (es ++ es') m'' := by
  refine ⟨fun place opened => ?_, fun behaves hg => ?_⟩
  · exact (opens_append.mp opened).elim (h.unopened place) (h'.unopened place)
  · obtain ⟨hg', framed⟩ := h.kept (behaves.mono (List.subset_append_left _ _)) hg
    obtain ⟨hg'', framed'⟩ := h'.kept (behaves.mono (List.subset_append_right _ _)) hg'
    exact ⟨hg'', framed.append framed'⟩

theorem weaken (h : Passage s o G G' m es m') (hG : ∀ d, G' d → G'' d) :
    Passage s o G G'' m es m' :=
  ⟨h.unopened, fun behaves hg => (h.kept behaves hg).imp (hG _) id⟩

theorem of_same (unopened : ∀ place, ¬ Opens o place es) (same : Same m m') :
    Passage s o G G m es m' :=
  ⟨unopened, fun _ hg => ⟨same.disk ▸ hg, fun place _ _ => .inl (congrArg (Disk.look · place) same.disk)⟩⟩

end Passage

theorem not_opens_nil : ¬ Opens o place [] := by simp [Opens]

/-- The request is a passage wherever it is made. -/
def Request.Passes (s : Settings) (o : Outside) (G : Disk → Prop) (q : Request) : Prop :=
  ∀ m, Passage s o G G m [(q, m)] (answer o q m).2

/-- A program whose requests are passages is one. -/
theorem passage_run {α : Type} {program : Program α} (hp : program.Only (Request.Passes s o G)) :
    program.Ends (answer o) m fun _ es m' => Passage s o G G m es m' := by
  refine hp.run_history (H := Passage s o G G) ?_ ?_ m
  · exact fun m => .of_same (fun _ => not_opens_nil) (.refl m)
  · exact fun q m es m' hq rest => (hq m).append rest

namespace Request

theorem not_opens_single (hq : ∀ truncate p, q ≠ .openWrite truncate p) (place : Place) :
    ¬ Opens o place [(q, m)] := by
  rintro ⟨truncate, p, before, handle, he, -⟩
  obtain ⟨rfl, -⟩ := Prod.mk.inj (List.mem_singleton.mp he)
  exact hq _ _ rfl

theorem Quiet.passes (h : q.Quiet) : q.Passes s o G := fun m =>
  .of_same (not_opens_single (by rintro _ _ rfl; exact h)) (same_quiet h o m)

theorem passes_log (level : Level) (text : String) : (Request.log level text).Passes s o G := fun _ =>
  .of_same (not_opens_single (by simp)) (same_log level text)

/-- What changes the disk in what the run owns, and brings no link, is a passage. -/
theorem passes_of_tame (hq : ∀ truncate p, q ≠ .openWrite truncate p)
    (h : ∀ m : Machine, m.disk.Open ways → m.disk.Tame (answer o q m).2.disk ∧
      ∀ place, ¬ s.Owns place → m.disk.LeftAt s place (answer o q m).2.disk) :
    q.Passes s o (Disk.Open ways) := fun m =>
  ⟨not_opens_single hq, fun _ open_ =>
    ⟨(h m open_).1.open open_, fun place aside _ => (h m open_).2 place aside⟩⟩

theorem passes_mkdir {up way : Path} (hw : way ∈ ways) (onWay : s.Way way)
    (above : Path.Above up way) : (Request.mkdir up).Passes s o (Disk.Open ways) := by
  refine passes_of_tame (by simp) fun m open_ => ?_
  rcases changed_mkdir o m up with ⟨-, hop, -⟩ | ⟨-, same⟩
  · refine ⟨Disk.mkdir_tame hop, fun place aside => ?_⟩
    refine (Disk.look_mkdir hop place).imp_right fun ⟨hn, hd⟩ => ⟨hn, hd, ?_⟩
    obtain ⟨front, -, spells⟩ := above.spells onWay.spells
    have made := Disk.mkdir_madeWay above spells.absolute hop
    refine (onWay.stays place ?_).resolve_left aside
    refine made.prefix onWay.spells (open_.clear way hw) hn fun hnone => ?_
    rw [Disk.look, Node.look_eq_none.mpr hnone] at hd
    cases hd
  · rw [same.disk]
    exact ⟨.refl _, fun _ _ => .inl rfl⟩

theorem Makes.passes {way : Path} (hw : way ∈ ways) (onWay : s.Way way) (hq : q.Makes way) :
    q.Passes s o (Disk.Open ways) := by
  rcases hq with h | ⟨up, above, rfl⟩
  · exact h.passes
  · exact passes_mkdir hw onWay above

theorem passes_unlink (hp : p ∈ [s.workspace, s.dist, s.output]) (hw : p ∈ ways)
    (spells : p.Spells p.names) : (Request.unlink p).Passes s o (Disk.Open ways) := by
  refine passes_of_tame (by simp) fun m open_ => ?_
  rcases changed_unlink o m p with ⟨-, hop, -⟩ | ⟨-, same⟩
  · refine ⟨Disk.unlink_tame hop, fun place aside => .inl ?_⟩
    exact Disk.unlink_changedAt spells (open_.clear p hw) hop place fun h => aside ⟨p, hp, h⟩
  · rw [same.disk]
    exact ⟨.refl _, fun _ _ => .inl rfl⟩

theorem passes_removeTree (laid : s.Laid) (hw : s.workspace ∈ ways) :
    (Request.removeTree s.workspace).Passes s o (Disk.Open ways) := by
  refine passes_of_tame (by simp) fun m open_ => ?_
  obtain ⟨h | h, -⟩ := removeTree_cases o m s.workspace <;> rw [h]
  · refine ⟨Disk.removeTree_tame, fun place aside => .inl ?_⟩
    have changed : m.disk.ChangedAt s.workspace.names
        (m.disk.removeTree m.cwd (.ofNames s.workspace.names)).2 :=
      Disk.removeTree_changedAt laid.workspace.proper laid.notRoot (open_.clear _ hw)
    rw [← laid.written.1] at changed
    exact changed place fun h => aside ⟨s.workspace, by simp, h⟩
  · exact ⟨.refl _, fun _ _ => .inl rfl⟩

theorem Removes.passes (laid : s.Laid) (hw : s.workspace ∈ ways) (hq : q.Removes s.workspace) :
    q.Passes s o (Disk.Open ways) := by
  rcases hq with h | rfl | rfl
  · exact h.passes
  · exact passes_unlink (by simp) hw laid.workspace
  · exact passes_removeTree laid hw

section Calls

variable {call : Call} {deadline : Option Nat}

/-- A call that behaves is a passage, if its behaviour keeps the ways open and is kept to what the run
owns or what is put down to others. -/
theorem passes_call
    (h : ∀ (d d' : Disk), call.Behaves s d d' → d.Open ways →
      (∀ p ∈ ways, d'.root.NoLinkAbove p.names) ∧
        (call.isEnvironment = false → ∀ place, ¬ s.Owns place → d'.look place = d.look place)) :
    (Request.collaborate call deadline).Passes s o (Disk.Open ways) := by
  refine fun m => ⟨not_opens_single (by simp), fun behaves open_ => ?_⟩
  obtain ⟨did, form⟩ := behaves call deadline m (List.mem_singleton_self _)
  obtain ⟨clear, frame⟩ := h _ _ did open_
  refine ⟨⟨form open_.wellFormed, clear⟩, fun place aside alone => .inl ?_⟩
  cases hc : call.isEnvironment with
  | false => exact frame hc place aside
  | true =>
    refine Classical.byContradiction fun changed => alone (.inl ?_)
    exact ⟨call, deadline, m, List.mem_singleton_self _, hc, changed⟩

theorem passes_build : (Request.collaborate (.build s.source s.dist) deadline).Passes s o
    (Disk.Open [s.workspace, s.output, s.installDir]) := by
  refine passes_call fun d d' ⟨changed, clear⟩ open_ => ⟨fun p hp => ?_, fun _ place aside => ?_⟩
  · exact clear p hp (open_.clear p hp)
  · exact changed place fun h => aside ⟨s.dist, by simp, h⟩

theorem passes_installInto (laid : s.Laid) (placed : s.Placed) (wheel : Path) :
    (Request.collaborate (.installInto wheel s.installDir) deadline).Passes s o
      (Disk.Open [s.workspace, s.output, s.installDir]) := by
  obtain ⟨-, inside⟩ := placed.inside s.installDir (by simp)
  refine passes_call fun d d' changed open_ => ⟨fun p hp above target hu hne ht => ?_,
    fun _ place aside => ?_⟩
  · -- No path but that of the installer itself goes through its directory.
    refine open_.clear p hp above target hu hne (Node.look_eq_link.mp ?_)
    refine (changed above fun h => ?_).symm.trans (Node.look_eq_link.mpr ht)
    simp only [List.mem_cons, List.not_mem_nil, or_false] at hp
    rcases hp with rfl | rfl | rfl
    · exact hne (hu.eq_of_length_le (inside.trans h).length_le)
    · exact laid.apart (inside.trans (h.trans hu))
    · exact hne (hu.eq_of_length_le h.length_le)
  · exact changed place fun h => aside ⟨s.workspace, by simp, inside.trans h⟩

theorem passes_environment (h : call.isEnvironment = true) :
    (Request.collaborate call deadline).Passes s o (Disk.Open [s.workspace]) := by
  refine passes_call fun d d' did open_ => ⟨fun p hp => ?_, fun hc => ?_⟩
  · obtain rfl := List.mem_singleton.mp hp
    have clear : d.KeepsClear s.workspace d' := by
      cases call with
      | build | installInto => cases h
      | isInstalled | uninstall | install => exact did
    exact clear (open_.clear _ hp)
  · cases h.symm.trans hc

end Calls

end Request

namespace Disk

variable {d d' : Disk} {cwd : Place}

theorem erase_sheds {taken : Place} (wf : d.root.WellFormed) (hne : taken ≠ [])
    (h : d.get? place = none) : (d.erase taken).get? place = none := by
  by_cases hp : taken <+: place
  · obtain ⟨rest, rfl⟩ := hp
    exact get?_erase_below wf hne rest
  · exact Node.look_eq_none.mp ((look_erase hp).trans (Node.look_eq_none.mpr h))

theorem unlink_sheds (wf : d.root.WellFormed) (hop : d.unlink cwd p = .ok d')
    (h : d.get? place = none) : d'.get? place = none := by
  obtain ⟨parent, name, node, -, -, -, rfl⟩ := unlink_ok hop
  exact erase_sheds wf (by simp) h

/-- A directory that is emptied has nothing new in it. -/
theorem empty_sheds {dir : Place} {es : Entries} (hg : d.get? dir = some (.dir es))
    (h : d.get? place = none) : (d.put dir (.dir [])).get? place = none := by
  by_cases hp : dir <+: place
  case neg => exact Node.look_eq_none.mp ((look_put hp).trans (Node.look_eq_none.mpr h))
  rcases List.eq_nil_or_concat dir with rfl | ⟨parent, name, rfl⟩
  · rwa [put_nil]
  rw [List.concat_eq_append] at hg hp ⊢
  obtain ⟨rest, rfl⟩ := hp
  obtain ⟨up, hup⟩ := Node.dir_of_get?_append hg
  rw [get?_put_below hup]
  cases rest with
  | nil => simp [hg] at h
  | cons => rfl

theorem removeTree_sheds (wf : d.root.WellFormed) (h : d.get? place = none) :
    (d.removeTree cwd p).2.get? place = none := by
  unfold removeTree
  split
  · exact h
  · exact h
  · split
    · exact h
    next hop => exact unlink_sheds wf hop h
  next dir es hr =>
    have hg : d.get? dir = some (.dir es) := lookup_sound (resolve_ok.mp hr)
    have emptied := empty_sheds hg h
    dsimp only
    split
    · exact emptied
    next hop =>
      obtain ⟨parent, name, slashed, -, -, rfl⟩ := rmdir_ok hop
      exact erase_sheds ((tame_replace hg .empty no_link_in_empty).wellFormed wf) (by simp) emptied

end Disk

/-- A part of a run after the archive: where nothing is, nothing comes to be, unless the environment
puts it there. -/
structure Retreat (s : Settings) (o : Outside) (m : Machine) (es : List (Request × Machine))
    (m' : Machine) : Prop where
  passage : Passage s o (Disk.Open [s.workspace]) (Disk.Open [s.workspace]) m es m'
  sheds : o.Behaves s es → m.disk.Open [s.workspace] → ∀ place, m.disk.get? place = none →
    ¬ o.Meddles place es → m'.disk.get? place = none

theorem Retreat.append (h : Retreat s o m es m') (h' : Retreat s o m' es' m'') :
    Retreat s o m (es ++ es') m'' := by
  refine ⟨h.passage.append h'.passage, fun behaves open_ place hn alone => ?_⟩
  have before := behaves.mono (List.subset_append_left _ _)
  refine h'.sheds (behaves.mono (List.subset_append_right _ _)) (h.passage.kept before open_).1 place
    (h.sheds before open_ place hn fun hm => alone ?_) fun hm => alone ?_
  · exact hm.mono (List.subset_append_left _ _)
  · exact hm.mono (List.subset_append_right _ _)

theorem Retreat.of_same (unopened : ∀ place, ¬ Opens o place es) (same : Same m m') :
    Retreat s o m es m' :=
  ⟨.of_same unopened same, fun _ _ _ hn _ => same.disk ▸ hn⟩

/-- The request is part of the retreat wherever it is made. -/
def Request.Retreats (s : Settings) (o : Outside) (q : Request) : Prop :=
  ∀ m, Retreat s o m [(q, m)] (answer o q m).2

theorem retreat_run {α : Type} {program : Program α} (hp : program.Only (Request.Retreats s o)) :
    program.Ends (answer o) m fun _ es m' => Retreat s o m es m' := by
  refine hp.run_history (H := Retreat s o) ?_ ?_ m
  · exact fun m => .of_same (fun _ => not_opens_nil) (.refl m)
  · exact fun q m es m' hq rest => (hq m).append rest

namespace Request

theorem Quiet.retreats (h : q.Quiet) : q.Retreats s o := fun m =>
  .of_same (not_opens_single (by rintro _ _ rfl; exact h)) (same_quiet h o m)

theorem retreats_log (level : Level) (text : String) : (Request.log level text).Retreats s o :=
  fun _ => .of_same (not_opens_single (by simp)) (same_log level text)

theorem Removes.retreats (laid : s.Laid) (hq : q.Removes s.workspace) : q.Retreats s o := by
  refine fun m => ⟨hq.passes laid (by simp) m, fun _ open_ place hn _ => ?_⟩
  rcases hq with h | rfl | rfl
  · exact (same_quiet h o m).disk ▸ hn
  · rcases changed_unlink o m s.workspace with ⟨-, hop, -⟩ | ⟨-, same⟩
    · exact Disk.unlink_sheds open_.wellFormed hop hn
    · exact same.disk ▸ hn
  · obtain ⟨h | h, -⟩ := removeTree_cases o m s.workspace <;> rw [h]
    · exact Disk.removeTree_sheds open_.wellFormed hn
    · exact hn

theorem retreats_environment {call : Call} {deadline : Option Nat} (h : call.isEnvironment = true) :
    (Request.collaborate call deadline).Retreats s o := by
  refine fun m => ⟨passes_environment h m, fun _ _ place hn alone => ?_⟩
  have same : (answer o (.collaborate call deadline) m).2.disk.look place = m.disk.look place :=
    Classical.byContradiction fun changed =>
      alone (.inl ⟨call, deadline, m, List.mem_singleton_self _, h, changed⟩)
  exact Node.look_eq_none.mp (same.trans (Node.look_eq_none.mpr hn))

end Request

end LayerPack
