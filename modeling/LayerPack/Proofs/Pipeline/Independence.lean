import LayerPack.Proofs.Pipeline.Clearing
import LayerPack.Proofs.Pipeline.Frame

/-! A run does not depend on what it finds in its workspace and at its output. Two runs from machines
that are the same elsewhere are the same for everyone they call, they report the same, and they leave
the same behind, provided that the first stage succeeds and that neither the workspace nor the output
is reached through the other or through a link in its place. The settings do not exclude such links, and
there what is left behind can depend on what was found. -/
namespace LayerPack

open Program Machine

variable {k : Kinship} {asked : Call → Prop} {o : Outside} {s : Settings} {m m' : Machine} {d e : Disk}

/-- The bytes that a run writes. -/
def writtenOf {σ : Type} (es : List (Request × σ)) : List ByteArray :=
  (deedsOf es).filterMap fun
    | .wrote bytes => some bytes
    | .called _ => none

@[simp] theorem writtenOf_append {σ : Type} (es es' : List (Request × σ)) :
    writtenOf (es ++ es') = writtenOf es ++ writtenOf es' := by
  simp [writtenOf, List.filterMap_append]

/-- Nothing is written by the request. -/
def Request.WritesNot (q : Request) : Prop := ∀ bytes, q.deed? ≠ some (.wrote bytes)

theorem writtenOf_eq_nil {σ : Type} {es : List (Request × σ)} (h : ∀ e ∈ es, e.1.WritesNot) :
    writtenOf es = [] := by
  refine List.filterMap_eq_nil_iff.mpr fun deed hd => ?_
  obtain ⟨e, he, hdeed⟩ := List.mem_filterMap.mp hd
  cases deed with
  | called => rfl
  | wrote bytes => exact (h e he bytes hdeed).elim

theorem Request.Quiet.writesNot {q : Request} (h : q.Quiet) : q.WritesNot := by
  cases q <;> first | exact h.elim | exact fun _ hd => by cases hd

theorem Request.Removes.writesNot {p : Path} {q : Request} (h : q.Removes p) : q.WritesNot := by
  rcases h with h | rfl | rfl
  · exact h.writesNot
  · exact fun _ hd => by cases hd
  · exact fun _ hd => by cases hd

namespace Settings

/-- When the first stage is done, the directories that it has made are there, and the paths of what it
removes name the places that they have named before. -/
structure Undisturbed (s : Settings) (d e : Disk) : Prop where
  made : ∀ p ∈ s.furnished, ∃ place, e.LeadsTo p place
  workspace : ∀ place, d.seat [] s.workspace = some place → e.seat [] s.workspace = some place
  output : ∀ place, d.seat [] s.output = some place → e.seat [] s.output = some place

theorem undisturbed_iff : s.Undisturbed d e ↔
    (∀ p ∈ s.furnished, e.kind? [] true p = some .dir) ∧
    (∀ place ∈ d.seat [] s.workspace, e.seat [] s.workspace = some place) ∧
    ∀ place ∈ d.seat [] s.output, e.seat [] s.output = some place := by
  constructor
  · exact fun h => ⟨fun p hp => Disk.kind?_eq_dir.mpr (h.made p hp), h.workspace, h.output⟩
  · exact fun ⟨made, workspace, output⟩ =>
      ⟨fun p hp => Disk.kind?_eq_dir.mp (made p hp), workspace, output⟩

instance : Decidable (s.Undisturbed d e) := decidable_of_iff _ undisturbed_iff.symm

theorem Undisturbed.undiverted (h : s.Undisturbed d e) (laid : s.Laid) :
    Disk.Undiverted s.workspace s.output d e where
  leads := by
    obtain ⟨place, leads⟩ := h.made s.tree (by simp [furnished])
    obtain ⟨dest, leads, -⟩ :=
      (laid.child_extends Workspace.properName_target).leadsTo laid.workspace.absolute leads
    exact ⟨dest, leads⟩
  seated := h.workspace
  staleSeated := h.output

end Settings

/-- What is dropped is not the root. -/
theorem Disk.Dropped.notRoot {names : List Name} (h : d.Dropped (.ofNames names) e) : names ≠ [] := by
  rintro rfl
  obtain ⟨root, nextId⟩ := d
  rcases h with ⟨-, h⟩ | h
  · cases root <;> cases h
  · cases root <;> cases h

namespace Pipeline

/-- The first stage of a run succeeds, and it leaves a disk of this kind. -/
def Clears (s : Settings) (o : Outside) (m : Machine) (P : Disk → Prop) : Prop :=
  (clean s (deadlineOf (answer o) s.stageTimeout .clean (answer o .clock m).2)).Ends (answer o)
    (atWork (answer o) .clean (answer o .clock m).2) fun r _ n =>
      (∃ workspace, r = .ok workspace) ∧ P n.disk

instance {P : Disk → Prop} [DecidablePred P] : Decidable (Clears s o m P) :=
  let first := (clean s (deadlineOf (answer o) s.stageTimeout .clean (answer o .clock m).2)).run
    (answer o) (atWork (answer o) .clean (answer o .clock m).2)
  decidable_of_iff (first.1.isOk ∧ P first.2.disk) (and_congr_left' (by
    rcases first.1 with _ | workspace <;> simp [Except.isOk, Except.toBool]))

/-- If the first stage succeeds, the output is not the root. -/
theorem output_notRoot (laid : s.Laid) (placed : s.Placed) (honest : o.Honest)
    (wf : m.disk.root.WellFormed) {deadline : Option Nat}
    (h : (clean s deadline).Ends (answer o) m fun r _ _ => ∃ workspace, r = .ok workspace) :
    s.output.names ≠ [] := by
  obtain ⟨renews, workspace, hr⟩ := (clean_renews laid placed honest wf deadline).and h
  obtain ⟨gone, full, renewed⟩ := renews workspace hr
  exact Disk.Dropped.notRoot (laid.written.2 ▸ renewed.dropped)

/-- What comes of a run that has packed, or failed to: the last stage reports the archive or fails. -/
inductive Ships : Except Failure (Workspace × Shipment) → Except Failure Report → Prop
  | reports {packed : Workspace × Shipment} {report : Report} (archive : report.archive = packed.2.archive)
    (treeDigest : report.treeDigest = packed.2.treeDigest) : Ships (.ok packed) (.ok report)
  | halts {packed : Workspace × Shipment} {failure : Failure} (stage : failure.stage = .reconcile) :
    Ships (.ok packed) (.error failure)
  | fails {failure : Failure} : Ships (.error failure) (.error failure)

/-- The second run has written the same as the first one; and if the first one succeeds, the second one
reports the same archive and the same digest of the tree, or fails in the last stage. -/
structure Reships (es es' : List (Request × Machine)) (r r' : Except Failure Report) : Prop where
  written : writtenOf es = writtenOf es'
  reported : ∀ report, r = .ok report →
    (∃ report', r' = .ok report' ∧ report'.archive = report.archive ∧
      report'.treeDigest = report.treeDigest) ∨
    ∃ failure, r' = .error failure ∧ failure.stage = .reconcile

theorem Ships.reships {x x' : Except Failure (Workspace × Shipment)} {r r' : Except Failure Report}
    {es es' : List (Request × Machine)} (paired : Paired Failure.Like Eq x x')
    (written : writtenOf es = writtenOf es') (h : Ships x r) (h' : Ships x' r') :
    Reships es es' r r' := by
  refine ⟨written, ?_⟩
  rintro report rfl
  cases h with
  | reports archive treeDigest =>
    cases paired with
    | ok same =>
      subst same
      cases h' with
      | reports archive' treeDigest' =>
        exact .inl ⟨_, rfl, archive'.trans archive.symm, treeDigest'.trans treeDigest.symm⟩
      | halts stage => exact .inr ⟨_, rfl, stage⟩

/-- The last stage writes nothing. -/
theorem finish_ships {startedAt : Nat} {packed : Workspace × Shipment} {p : Progress} :
    (finish s Toolchain.outside startedAt packed.1 packed.2.wheel packed.2.treeDigest packed.2.archive
      p).Ends (answer o) m fun r es _ => writtenOf es = [] ∧ Ships (.ok packed) r.1 := by
  have silent : (finish s Toolchain.outside startedAt packed.1 packed.2.wheel packed.2.treeDigest
      packed.2.archive p).Only Request.WritesNot :=
    only_finish s startedAt packed.1 packed.2.wheel packed.2.treeDigest packed.2.archive p
      (fun _ _ _ hd => by cases hd) (fun _ h => h.writesNot)
      fun call _ => only_perform fun _ _ hd => by cases hd
  refine (finish_ends.and silent.ends).mono ?_
  rintro ⟨r, q⟩ es n ⟨⟨-, h⟩, silent⟩
  refine ⟨writtenOf_eq_nil silent, ?_⟩
  cases r with
  | ok report => exact .reports h.1 h.2.1
  | error failure => exact .halts h

/-- What follows the packing. -/
theorem rest_ships (startedAt : Nat) (x : Except Failure (Workspace × Shipment) × Progress)
    (p : Progress) (m : Machine) :
    (((fun _ => done x : Steps (Workspace × Shipment)) >>= fun packed => finish s Toolchain.outside
      startedAt packed.1 packed.2.wheel packed.2.treeDigest packed.2.archive) p).Ends (answer o) m
        fun r es _ => writtenOf es = [] ∧ Ships x.1 r.1 := by
  obtain ⟨_ | packed, p⟩ := x
  · exact ⟨rfl, .fails⟩
  · exact finish_ships

/-- Before and after its stages a run writes nothing. -/
theorem ends_run_written {previous : RunState}
    {Q : Except Failure Report × RunState → List (Request × Machine) → Machine → Prop}
    (h : (stages s Toolchain.outside (answer o .clock m).1 { state := previous }).Ends (answer o)
      (answer o .clock m).2 fun r es _ => ∀ fs, es ⊆ fs ∧ writtenOf fs = writtenOf es →
        ∀ n, Q (r.1, r.2.state) fs n) : (run s Toolchain.outside previous).Ends (answer o) m Q := by
  have log (level : Level) (text : String) : (Request.log level text).WritesNot :=
    fun _ hd => by cases hd
  have cleaned (workspace : Option Workspace) : (cleanUp s workspace).Only Request.WritesNot := by
    cases workspace with
    | none => trivial
    | some workspace => exact only_cleanUp s workspace log fun _ h => h.writesNot
  refine ends_run (h.mono fun r es n hQ => (cleaned r.2.workspace).ends.mono fun _ es₁ _ silent₁ =>
    (only_logOutcome r.1 log).ends.mono fun _ es₂ _ silent₂ => hQ _ ⟨fun e he => by simp [he], ?_⟩ _)
  have clock : writtenOf [(Request.clock, m)] = [] := rfl
  change writtenOf ([(Request.clock, m)] ++ (es ++ (es₁ ++ es₂))) = writtenOf es
  rw [writtenOf_append, writtenOf_append, writtenOf_append, clock, writtenOf_eq_nil silent₁,
    writtenOf_eq_nil silent₂, List.nil_append, List.append_nil, List.append_nil]

/-- The first stage leaves the workspace of the settings. -/
theorem first_leaves (p : Progress) (m : Machine) :
    (stage s.stageTimeout .clean (clean s) p).Ends (answer o) m fun r _ _ =>
      ∀ workspace, r.1 = .ok workspace → workspace = ⟨s.workspace⟩ := by
  have known : (stage s.stageTimeout .clean (clean s) p).Returns fun r =>
      ∀ workspace, r.1 = .ok workspace → workspace = ⟨s.workspace⟩ := by
    refine (returns_stage (clean_yields s)).mono ?_
    rintro ⟨_ | workspace, q⟩ ⟨-, h⟩ _ ⟨⟩
    exact h
  exact known.run _ m

/-- The stages up to the archive. -/
def packing (s : Settings) (t : Toolchain) : Steps (Workspace × Shipment) := do
  let workspace ← stage s.stageTimeout .clean (clean s)
  Steps.update fun p => { p with workspace := some workspace }
  let shipment ← shipping s t workspace
  return (workspace, shipment)

theorem stages_packing (s : Settings) (t : Toolchain) (startedAt : Nat) :
    stages s t startedAt = packing s t >>= fun packed =>
      finish s t startedAt packed.1 packed.2.wheel packed.2.treeDigest packed.2.archive := by
  rw [stages_eq, packing, steps_bind_assoc]
  refine congrArg (stage s.stageTimeout .clean (clean s) >>= ·) (funext fun workspace => ?_)
  rw [steps_bind_assoc, laterStages_eq]
  refine congrArg (Steps.update _ >>= ·) (funext fun _ => ?_)
  rw [steps_bind_assoc]
  rfl

/-- What is done when the stages are over. -/
def ending (s : Settings) (r : Except Failure Report × Progress) :
    Program (Except Failure Report × RunState) := do
  cleanUp s r.2.workspace
  logOutcome r.1
  return (r.1, r.2.state)

section

variable (steady : o.Steady k asked) (timed : s.stageTimeout.isSome → k.timed)
  (laid : s.Laid) (placed : s.Placed)

include steady laid placed

/-- The first stage does on the second machine what it does on the first one, and leaves twins. -/
theorem abreast_cleared (kin : Kin k (Disk.AlikeBut s.workspace s.output) m m')
    {deadline deadline' : Option Nat} (due : k.Due deadline deadline')
    (clears : (clean s deadline).Ends (answer o) m fun r _ n =>
      (∃ workspace, r = .ok workspace) ∧ s.Undisturbed m.disk n.disk) :
    (clean s deadline).Abreast (answer o) Drawn (fun n n' => n = m ∧ n' = m') (clean s deadline')
      fun r n r' n' => Paired Archive.StopsLike Eq r r' ∧ Twin k n n' := by
  rintro _ _ ⟨rfl, rfl⟩
  have honest : o.Honest := Outside.Steady.honest steady
  have renews := clean_renews laid placed honest kin.disk.form deadline
  have known : (clean s deadline).Ends (answer o) _ fun r _ n => (∃ workspace, r = .ok workspace) ∧
      n.disk = ((clean s deadline).run (answer o) _).2.disk := ⟨clears.1, rfl⟩
  have notRoot := output_notRoot laid placed honest kin.disk.form (clears.mono fun _ _ _ h => h.1)
  obtain ⟨⟨workspace, hr⟩, undisturbed⟩ := clears
  obtain ⟨gone, full, renewed⟩ := renews workspace hr
  have stale : Disk.Written s.output (s.output.names.dropLast ++ [s.output.names.getLast notRoot]) := by
    rw [List.dropLast_concat_getLast]
    exact ⟨laid.written.2, laid.output.proper⟩
  refine (abreast_clean steady laid placed renewed (undisturbed.undiverted laid) (fun outside => ?_)
    (fun p hp => ?_) stale kin.disk due).mono ?_ _ _ ⟨{ kin with disk := ⟨rfl, rfl⟩ }, known⟩
  · exact undisturbed.made s.dist (by simp [Settings.furnished, outside])
  · exact undisturbed.made p (List.mem_append_left _ hp)
  · rintro r n r' n' ⟨rfl, twins⟩
    refine ⟨?_, twins⟩
    cases r with
    | ok a => exact .ok rfl
    | error stop => exact .error (.refl stop)

include timed

theorem abreast_first (p : Progress) (kin : Kin k (Disk.AlikeBut s.workspace s.output) m m')
    (clears : Clears s o m (s.Undisturbed m.disk)) :
    (stage s.stageTimeout .clean (clean s) p).Abreast (answer o) Drawn
      (fun n n' => n = (answer o .clock m).2 ∧ n' = (answer o .clock m').2)
      (stage s.stageTimeout .clean (clean s) p) fun r n r' n' =>
        Steps.Alike Eq r r' ∧ Twin k n n' := by
  have begun : Kin k (Disk.AlikeBut s.workspace s.output) (answer o .clock m).2 (answer o .clock m').2 :=
    kin.step steady
  exact abreast_stage_at steady .clean (abreast_cleared steady laid placed
    (kin_atWork steady .clean begun) (due_atWork steady timed .clean begun) clears) ⟨rfl, rfl, rfl⟩

variable (asks : ∀ call, call.isEnvironment = false → asked call)

include asks

/-- Up to the archive all stages do on the second machine what they do on the first one. -/
theorem abreast_packing (previous : RunState) (kin : Kin k (Disk.AlikeBut s.workspace s.output) m m')
    (clears : Clears s o m (s.Undisturbed m.disk)) :
    (packing s Toolchain.outside { state := previous }).Abreast (answer o) Drawn
      (fun n n' => n = (answer o .clock m).2 ∧ n' = (answer o .clock m').2)
      (packing s Toolchain.outside { state := previous }) fun r n r' n' =>
        Steps.Alike Eq r r' ∧ Twin k n n' := by
  have notRoot : s.output.names ≠ [] :=
    output_notRoot (m := atWork (answer o) .clean (answer o .clock m).2) laid placed
      (Outside.Steady.honest steady) kin.disk.form (clears.mono fun _ _ _ h => h.1)
  have first := (abreast_first steady timed laid placed { state := previous } kin clears).ends
    fun n n' _ => ⟨first_leaves _ n, first_leaves _ n'⟩
  refine abreast_steps_next (S := fun workspace workspace' => workspace = ⟨s.workspace⟩ ∧
    workspace' = ⟨s.workspace⟩) (first.mono ?_) ?_
  · rintro ⟨r, q⟩ n ⟨r', q'⟩ n' ⟨⟨⟨paired, like⟩, twins⟩, known, -⟩
    refine ⟨⟨?_, like⟩, twins⟩
    cases paired with
    | error failed => exact .error failed
    | @ok a _ same => exact .ok ⟨known a rfl, same ▸ known a rfl⟩
  · rintro _ _ q q' ⟨rfl, rfl⟩ like
    refine abreast_steps_next (S := fun _ _ => True)
      (abreast_done fun _ _ h => ⟨⟨.ok trivial, like.state, like.completed, rfl⟩, h⟩)
      fun _ _ q q' _ like => ?_
    refine abreast_steps_bind (abreast_shipping steady timed laid notRoot (asks _ rfl)
      (fun _ _ => asks _ rfl) like) fun shipment q q' like => ?_
    exact abreast_done fun _ _ h => ⟨⟨.ok rfl, like⟩, h⟩

/-- The second run ships what the first one has shipped. -/
theorem reships_stages (startedAt startedAt' : Nat) (previous : RunState)
    (kin : Kin k (Disk.AlikeBut s.workspace s.output) m m')
    (clears : Clears s o m (s.Undisturbed m.disk)) :
    (stages s Toolchain.outside startedAt { state := previous }).Sides (answer o)
      (fun n n' => n = (answer o .clock m).2 ∧ n' = (answer o .clock m').2)
      (stages s Toolchain.outside startedAt' { state := previous }) fun r es _ r' es' _ =>
        (∀ e ∈ es ++ es', Drawn e) → Reships es es' r.1 r'.1 := by
  have packed := abreast_packing steady timed laid placed asks previous kin clears
  rw [stages_packing, stages_packing]
  refine Sides.bind packed fun x es x' es' => ?_
  intro n n' same
  refine (rest_ships startedAt x {} n).mono fun r fs _ ⟨silent, ships⟩ => ?_
  refine (rest_ships startedAt' x' {} n').mono fun r' fs' _ ⟨silent', ships'⟩ fairly => ?_
  obtain ⟨deeds, ⟨paired, -⟩, -⟩ := same fun e he => fairly e (by
    rcases List.mem_append.mp he with he | he <;> simp [he])
  refine ships.reships paired ?_ ships'
  rw [writtenOf_append, writtenOf_append, silent, silent', writtenOf, writtenOf, deeds]

omit laid placed timed asks in
/-- What is done when all stages are over. -/
theorem abreast_ending {r r' : Except Failure Report} {q q' : Progress}
    (paired : Paired Failure.Like (fun a b => a.untimed = b.untimed) r r') (like : q.Like q') :
    (ending s (r, q)).Abreast (answer o) Drawn (Twin k) (ending s (r', q')) fun r n r' n' =>
      Paired Failure.Like (fun a b => a.untimed = b.untimed) r.1 r'.1 ∧ r.2 = r'.2 ∧ Twin k n n' := by
  unfold ending
  rw [← like.workspace]
  refine Abreast.bind (agrees_cleanUp steady q.workspace) fun _ _ => ?_
  refine Abreast.bind ((abreast_logOutcome steady r r').pre fun _ _ h => h.2) fun _ _ => ?_
  exact abreast_done fun _ _ twins => ⟨paired, like.state, twins⟩

/-- If the environment answers alike as well, the whole runs are the same for everyone, and leave twins. -/
theorem abreast_run (all : ∀ call, asked call) (previous : RunState)
    (kin : Kin k (Disk.AlikeBut s.workspace s.output) m m')
    (clears : Clears s o m (s.Undisturbed m.disk)) :
    (run s Toolchain.outside previous).Abreast (answer o) Drawn (fun n n' => n = m ∧ n' = m')
      (run s Toolchain.outside previous) fun r n r' n' =>
        Paired Failure.Like (fun a b => a.untimed = b.untimed) r.1 r'.1 ∧ r.2 = r'.2 ∧ Twin k n n' := by
  have packed := abreast_packing steady timed laid placed asks previous kin clears
  refine Abreast.after rfl ?_
  rw [stages_packing, stages_packing]
  refine Abreast.bind (abreast_steps_bind packed fun packed q q' like =>
    abreast_finish steady timed all _ _ _ _ _ _ like) fun r r' => ?_
  rintro n n' ⟨⟨paired, like⟩, twins⟩
  exact abreast_ending steady paired like n n' twins

/-- The same holds of the whole runs. -/
theorem reships_run (previous : RunState) (kin : Kin k (Disk.AlikeBut s.workspace s.output) m m')
    (clears : Clears s o m (s.Undisturbed m.disk)) :
    (run s Toolchain.outside previous).Ends (answer o) m fun r es _ =>
      (run s Toolchain.outside previous).Ends (answer o) m' fun r' es' _ =>
        (∀ e ∈ es ++ es', Drawn e) → Reships es es' r.1 r'.1 := by
  have staged := reships_stages steady timed laid placed asks (answer o .clock m).1
    (answer o .clock m').1 previous kin clears _ _ ⟨rfl, rfl⟩
  refine ends_run_written (staged.mono fun r es _ rest fs hfs _ => ?_)
  refine ends_run_written (rest.mono fun r' es' _ ships fs' hfs' _ fairly => ?_)
  obtain ⟨sub, written⟩ := hfs
  obtain ⟨sub', written'⟩ := hfs'
  obtain ⟨same, reported⟩ := ships fun e he => fairly e (by
    rcases List.mem_append.mp he with he | he
    · exact List.mem_append_left _ (sub he)
    · exact List.mem_append_right _ (sub' he))
  exact ⟨written.trans (same.trans written'.symm), reported⟩

end

/-- Two runs from machines that differ at most at and below the workspace and at the output, if the first
stage succeeds and is not diverted. The second run ships what the first one has shipped, if those who
build and install answer alike. If the environment answers alike as well, both make the same calls with
the same arguments, write the same, and end in the same way, and they leave the same behind. -/
theorem run_independent (accepted : s.Accepted) (steady : o.Steady k asked)
    (asks : ∀ call, call.isEnvironment = false → asked call)
    (timed : s.stageTimeout.isSome → k.timed)
    (kin : Kin k (Disk.AlikeBut s.workspace s.output) m m')
    (clears : Clears s o m (s.Undisturbed m.disk)) (previous : RunState) :
    (run s Toolchain.outside previous).Ends (answer o) m fun r es n =>
      (run s Toolchain.outside previous).Ends (answer o) m' fun r' es' n' =>
        (∀ e ∈ es ++ es', Drawn e) → Reships es es' r.1 r'.1 ∧
          ((∀ call, asked call) → deedsOf es = deedsOf es' ∧
            Paired Failure.Like (fun a b => a.untimed = b.untimed) r.1 r'.1 ∧ r.2 = r'.2 ∧
            Twin k n n') := by
  have laid := accepted.laid
  have placed := accepted.placed
  have ships := reships_run steady timed laid placed asks previous kin clears
  by_cases all : ∀ call, asked call
  · have same := abreast_run steady timed laid placed asks all previous kin clears m m' ⟨rfl, rfl⟩
    exact (ships.and same).mono fun _ _ _ ⟨h, h'⟩ => (h.and h').mono fun _ _ _ ⟨h, h'⟩ fairly =>
      ⟨h fairly, fun _ => h' fairly⟩
  · exact ships.mono fun _ _ _ h => h.mono fun _ _ _ h fairly => ⟨h fairly, fun h => (all h).elim⟩

/-- What a builder and an installer put on the disks of twins leaves twins. -/
theorem stocking_steady {built : Entries} (wf : (Node.dir built).WellFormed) :
    (Outside.stocking built).Steady k asked where
  sound _ := rfl
  swift _ _ := rfl
  alike call _ m m' twins := by
    have put {es : Entries} (wf : (Node.dir es).WellFormed) (p : Path) : Twin k
        { m with disk := m.disk.put p.names (.dir es) } { m' with disk := m'.disk.put p.names (.dir es) } :=
      have proper : ∀ name ∈ p.names, ProperName name :=
        Path.properName_of_mem_settle (by simp) fun _ h => Path.properName_of_mem_components h
      { twins with
        disk.alike := twins.disk.alike.put_anywhere (.refl _) p.names
        disk.form := Disk.wellFormed_put twins.disk.form proper wf
        disk.form' := Disk.wellFormed_put twins.disk.form' proper wf }
    cases call with
    | build _ dist => exact ⟨rfl, put wf dist⟩
    | installInto _ target => exact ⟨rfl, put (by decide) target⟩
    | isInstalled | uninstall | install => exact ⟨rfl, twins⟩

/-- A leaf is put in the place of another one, or where nothing was. It is told from what was there before
at this place only. -/
theorem view_put_leaf {parent q : Place} {name : Name} {leaf : Node}
    (up : ∃ es, d.get? parent = some (.dir es)) (old : ∀ es, d.get? (parent ++ [name]) ≠ some (.dir es))
    (flat : ∀ es, leaf ≠ .dir es) (hq : q ≠ parent ++ [name]) :
    (d.put (parent ++ [name]) leaf).view q = d.view q := by
  by_cases hp : parent ++ [name] <+: q
  case neg => exact Node.view_of_look (Disk.look_put hp)
  obtain ⟨es, hd⟩ := up
  obtain ⟨_ | ⟨next, rest⟩, rfl⟩ := hp
  · simp at hq
  have new (es : Entries) : (d.put (parent ++ [name]) leaf).get? (parent ++ [name]) ≠ some (.dir es) := by
    rw [Disk.get?_put_self hd]
    exact fun h => flat es (Option.some.inj h)
  exact (Node.view_of_none (Disk.get?_below_none new rest)).trans
    (Node.view_of_none (Disk.get?_below_none old rest)).symm

/-- An earlier run has left a tree in one place and a leaf in another one. -/
def littered (m : Machine) (place : Place) (tree : Node) (stale : Place) (leaf : Node) : Machine :=
  { m with disk := (m.disk.put place tree).put stale leaf }

/-- What has been left in the workspace and at the output makes no difference elsewhere. -/
theorem kin_littered {timed installed : Bool} {place : Place} (parent : Place) {name : Name}
    {tree leaf : Node} (workspace : m.disk.seat [] s.workspace = some place)
    (output : m.disk.seat [] s.output = some (parent ++ [name]))
    (up : ∃ es, (m.disk.put place tree).get? parent = some (.dir es))
    (old : ∀ es, (m.disk.put place tree).get? (parent ++ [name]) ≠ some (.dir es))
    (flat : ∀ es, leaf ≠ .dir es) (wf : m.disk.root.WellFormed)
    (wf' : (littered m place tree (parent ++ [name]) leaf).disk.root.WellFormed) :
    Kin ⟨timed, installed, 0⟩ (Disk.AlikeBut s.workspace s.output) m
      (littered m place tree (parent ++ [name]) leaf) where
  disk := {
    same q off stale := by
      have other : q ≠ parent ++ [name] := fun h => stale (h ▸ output)
      exact (Node.view_of_look (Disk.look_put (off place workspace))).symm.trans
        (view_put_leaf up old flat other).symm
    noDir q es _ stale he := by
      obtain rfl := Option.some.inj (output.symm.trans stale)
      obtain ⟨inner, hd⟩ := up
      exact flat es (Option.some.inj ((Disk.get?_put_self hd).symm.trans he))
    form := wf
    form' := wf' }
  cwd := rfl
  environment := rfl
  installed _ := rfl
  clock _ := by simp [littered]

/-- A workspace with an old wheel and an old module. -/
def crashed : Node := .dir [
  (Bytes.ofString "dist", .dir [(Bytes.ofString "small-0-py3-none-any.whl", .file 1 0o644 .empty)]),
  (Bytes.ofString "target", .dir [(Bytes.ofString "old.py", .file 2 0o644 .empty)])]

/-- What a run that has crashed may have left, and an old archive. -/
def leftover : Machine :=
  littered (.small []) [Bytes.ofString "work"] crashed [Bytes.ofString "out.zip"] (.file 3 0o644 .empty)

set_option maxRecDepth 100000 in
/-- A small run is the same with and without what a crashed run has left. -/
theorem small_run_independent : (Settings.small "/work" "/out.zip").Accepted ∧
    (run (.small "/work" "/out.zip") Toolchain.outside .pending).Ends (answer wheelwright) (.small [])
      fun r es n => (run (.small "/work" "/out.zip") Toolchain.outside .pending).Ends
        (answer wheelwright) leftover fun r' es' n' => r.1.isOk ∧ r'.1.isOk ∧
          Reships es es' r.1 r'.1 ∧ deedsOf es = deedsOf es' ∧
          Paired Failure.Like (fun a b => a.untimed = b.untimed) r.1 r'.1 ∧ r.2 = r'.2 ∧
          Twin ⟨true, true, 0⟩ n n' := by
  have accepted : (Settings.small "/work" "/out.zip").Accepted :=
    ⟨.small "/work" "/out.zip", .small [], .small [], by decide +kernel⟩
  have steady : wheelwright.Steady ⟨true, true, 0⟩ fun _ => True := stocking_steady (by decide +kernel)
  have free : ((Machine.small []).disk.put [Bytes.ofString "work"] crashed).get?
      ([] ++ [Bytes.ofString "out.zip"]) = none := by decide +kernel
  have kin : Kin ⟨true, true, 0⟩ (Disk.AlikeBut (.ofString "/work") (.ofString "/out.zip"))
      (.small []) leftover :=
    kin_littered (s := .small "/work" "/out.zip") [] (by decide +kernel) (by decide +kernel) ⟨_, rfl⟩
      (fun es h => by cases free.symm.trans h) (fun es h => by cases h) (by decide +kernel)
      (by decide +kernel)
  have clears : Clears (.small "/work" "/out.zip") wheelwright (.small [])
      ((Settings.small "/work" "/out.zip").Undisturbed (Machine.small []).disk) := by
    decide +kernel
  have fairly (m : Machine) (hm : m = .small [] ∨ m = leftover) :
      (run (.small "/work" "/out.zip") Toolchain.outside .pending).Ends (answer wheelwright) m
        fun r es _ => r.1.isOk ∧ ∀ e ∈ es, Drawn e := by
    rcases hm with rfl | rfl <;>
    · unfold Ends
      decide +kernel
  refine ⟨accepted, ?_⟩
  have same := run_independent accepted steady (fun _ _ => trivial) (fun _ => rfl) kin clears .pending
  refine (same.and (fairly _ (.inl rfl))).mono fun r es n ⟨same, ok, drawn⟩ => ?_
  refine (same.and (fairly _ (.inr rfl))).mono fun r' es' n' ⟨same, ok', drawn'⟩ => ?_
  obtain ⟨ships, alike⟩ := same fun e he => (List.mem_append.mp he).elim (drawn e) (drawn' e)
  exact ⟨ok, ok', ships, alike fun _ => trivial⟩

/-- Wheels are kept below the output. -/
def detour : Settings := { Settings.small "/work" "/out" with dist := .ofString "/out/d" }

/-- At the output is a link to one of two directories. -/
def crossing : Machine :=
  .small [("a", .dir []), ("b", .dir []), ("out", .link (Bytes.ofString "/a"))]

/-- The link leads to the other directory, and the workspace is there. -/
def recrossing : Machine :=
  littered crossing [Bytes.ofString "work"] (.dir []) [Bytes.ofString "out"] (.link (Bytes.ofString "/b"))

set_option maxRecDepth 100000 in
/-- If the directory of wheels is reached through a link at the output, the first stage makes it before it
removes the link. Where it stays in the end depends on where the link has led. -/
theorem run_depends_on_output_link : detour.Accepted ∧
    wheelwright.Steady ⟨true, true, 0⟩ (fun _ => True) ∧
    Kin ⟨true, true, 0⟩ (Disk.AlikeBut detour.workspace detour.output) crossing recrossing ∧
    Clears detour wheelwright crossing (fun _ => True) ∧
    Clears detour wheelwright recrossing (fun _ => True) ∧
    (run detour Toolchain.outside .pending).Ends (answer wheelwright) crossing fun _ _ n =>
      (run detour Toolchain.outside .pending).Ends (answer wheelwright) recrossing fun _ _ n' =>
        ¬ n.disk.Alike n'.disk := by
  have accepted : detour.Accepted :=
    ⟨{ Options.small "/work" "/out" with dist := some (.ofString "/out/d") }, .small [], .small [],
      by decide +kernel⟩
  have link : (crossing.disk.put [Bytes.ofString "work"] (.dir [])).get? ([] ++ [Bytes.ofString "out"]) =
      some (.link (Bytes.ofString "/a")) := by decide +kernel
  have kin : Kin ⟨true, true, 0⟩ (Disk.AlikeBut detour.workspace detour.output) crossing recrossing :=
    kin_littered [] (by decide +kernel) (by decide +kernel) ⟨_, rfl⟩
      (fun es h => by cases link.symm.trans h) (fun es h => by cases h) (by decide +kernel)
      (by decide +kernel)
  have left : (run detour Toolchain.outside .pending).Ends (answer wheelwright) crossing
      fun _ _ n => n.disk.get? [Bytes.ofString "a", Bytes.ofString "d"] = some (.dir []) := by
    unfold Ends
    decide +kernel
  have right : (run detour Toolchain.outside .pending).Ends (answer wheelwright) recrossing
      fun _ _ n => n.disk.get? [Bytes.ofString "a", Bytes.ofString "d"] = none := by
    unfold Ends
    decide +kernel
  refine ⟨accepted, stocking_steady (by decide +kernel), kin, by decide +kernel, by decide +kernel, ?_⟩
  refine left.mono fun _ _ n there => right.mono fun _ _ n' missing alike => ?_
  rw [alike.symm.missing missing] at there
  cases there

end Pipeline

end LayerPack
