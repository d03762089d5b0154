import LayerPack.Proofs.Archive.Delivery
import LayerPack.Proofs.Host.Agreement
import LayerPack.Proofs.Pipeline.Calls
import LayerPack.Proofs.Pipeline.Stages
import LayerPack.Proofs.Pipeline.Whole

/-! The stages of two runs on twins. Each stage ends on both in the same way, up to readings of the
clock and the names of hidden files, and leaves twins. -/
namespace LayerPack

open Program Machine

/-! ### Works that agree

The work of the stages agrees on twins, if those whom it calls answer twins alike. -/

section

variable {k : Kinship} {asked : Call → Prop} {o : Outside}

/-- Collaborators answer twins alike, also if they are cut off. -/
theorem Machine.Twin.answered (steady : o.Steady k asked) {call : Call} (ha : asked call)
    {deadline deadline' : Option Nat} (due : k.Due deadline deadline') {m m' : Machine}
    (h : Twin k m m') :
    call.answered deadline (answer o (.collaborate call deadline) m).1 =
        call.answered deadline' (answer o (.collaborate call deadline') m').1 ∧
      Twin k (answer o (.collaborate call deadline) m).2
        (answer o (.collaborate call deadline') m').2 := by
  have replied := steady.alike call ha ((m.step (o.delay m.ticks)).record call)
    ((m'.step (o.delay m'.ticks)).record call) { h.step steady with }
  cases due with
  | never =>
    change some (forever endless (o.collaborate call _)).1 =
        some (forever endless (o.collaborate call _)).1 ∧
      Twin k (forever endless (o.collaborate call _)).2 (forever endless (o.collaborate call _)).2
    revert replied
    rcases o.collaborate call ((m.step (o.delay m.ticks)).record call) with ⟨r, n⟩
    rcases o.collaborate call ((m'.step (o.delay m'.ticks)).record call) with ⟨r', n'⟩
    rintro ⟨rfl, twins⟩
    cases r <;> exact ⟨rfl, twins⟩
  | @«at» limit limit' timed lead =>
    change (waited limit (o.collaborate call _)).1 = (waited limit' (o.collaborate call _)).1 ∧
      Twin k (waited limit (o.collaborate call _)).2 (waited limit' (o.collaborate call _)).2
    revert replied
    rcases o.collaborate call ((m.step (o.delay m.ticks)).record call) with ⟨r, n⟩
    rcases o.collaborate call ((m'.step (o.delay m'.ticks)).record call) with ⟨r', n'⟩
    rintro ⟨rfl, twins⟩
    have clock : (n'.time : Int) = n.time + k.lead := twins.clock timed
    cases r with
    | none =>
      refine ⟨rfl, { twins with clock := fun _ => ?_ }⟩
      simp only [waited]
      omega
    | some a =>
      have late : limit' < n'.time ↔ limit < n.time := by omega
      simp only [waited, late]
      split <;> exact ⟨rfl, twins⟩

theorem Toolchain.agrees_outside (steady : o.Steady k asked) {call : Call} (ha : asked call) :
    (Toolchain.outside.perform call).Agrees (answer o) Drawn (Twin k) k.Due := by
  intro deadline deadline' due m m' h
  obtain ⟨replies, twins⟩ := h.answered steady ha due
  refine Toolchain.ends_outside.mpr (Toolchain.ends_outside.mpr fun _ => ⟨rfl, ?_, twins⟩)
  rw [replies]

section

variable (steady : o.Steady k asked)

include steady

namespace Wheel

theorem agrees_isThere (p : Path) : (isThere p).Agrees (answer o) Drawn (Twin k) := by
  refine (Files.agrees_stat steady p).bind fun r => ?_
  cases r with
  | ok => exact agrees_done _
  | error => exact (Files.agrees_lstat steady p).bind fun r => by cases r <;> exact agrees_done _

theorem agrees_descend (here : Path) (parts : List String) :
    (descend here parts).Agrees (answer o) Drawn (Twin k) := by
  induction parts generalizing here with
  | nil => exact agrees_done _
  | cons part rest ih =>
    rw [descend]
    refine Agrees.bind ?_ fun found => ?_
    · split
      · exact Files.agrees_kindIs steady .dir here
      · exact agrees_isThere steady _
    · split
      · exact ih _
      · exact agrees_done _

theorem agrees_scanned (dir : Path) : (scanned dir).Agrees (answer o) Drawn (Twin k) := by
  unfold scanned
  split <;> exact agrees_descend steady _ _

theorem agrees_candidates (dir : Path) : (candidates dir).Agrees (answer o) Drawn (Twin k) := by
  refine (agrees_scanned steady dir).bind fun here => ?_
  cases here with
  | none => exact agrees_done _
  | some here =>
    refine (Files.agrees_kindIs steady .dir here).bind fun isDir => ?_
    split
    · refine Abreast.bind (abreast_list steady here) fun r r' => ?_
      rintro n n' ⟨both, h⟩
      rcases both.outcome with ⟨e, rfl, rfl⟩ | ⟨names, names', rfl, rfl, perm⟩
      · exact agrees_done _ n n' h
      · have sorted : names.mergeSort Bytes.le = names'.mergeSort Bytes.le :=
          mergeSort_of_perm (f := id) perm fun _ _ _ _ => id
        dsimp only
        rw [sorted]
        exact agrees_done _ n n' h
    · exact agrees_done _

theorem agrees_matching (project : String) (found : List Path) :
    (matching project found).Agrees (answer o) Drawn (Twin k) := by
  induction found with
  | nil => exact agrees_done _
  | cons p rest ih =>
    refine (Files.agrees_kindIs steady .file p).bind fun isFile => ?_
    split
    · split
      · exact (agrees_log steady _ _).bind fun _ => ih.bind fun _ => agrees_done _
      · exact (agrees_log steady _ _).bind fun _ => ih
    · exact ih

theorem agrees_select (dir : Path) (project : String) :
    (select dir project).Agrees (answer o) Drawn (Twin k) k.Due := by
  refine (agrees_candidates steady dir).now.bind fun found => (Work.agrees_ofExcept found).bind
    fun found => (agrees_matching steady project found).now.bind fun found => ?_
  split
  · exact Work.agrees_pure _
  · exact ((Files.agrees_listNames steady dir).await (prompt steady)).bind fun contents =>
      (Work.agrees_ofExcept contents).bind fun _ => Work.agrees_fail _
  · exact Work.agrees_fail _

end Wheel

theorem agrees_buildWheel {source dist : Path} (project : String) (ha : asked (.build source dist)) :
    (buildWheel Toolchain.outside source dist project).Agrees (answer o) Drawn (Twin k) k.Due :=
  (Work.agrees_log steady _ _).bind fun _ => (Toolchain.agrees_outside steady ha).bind fun _ =>
    (Wheel.agrees_select steady dist project).bind fun _ =>
      (Work.agrees_log steady _ _).bind fun _ => Work.agrees_pure _

theorem agrees_materialize {wheel : Wheel} {target : Path}
    (ha : asked (.installInto wheel.path target)) :
    (materialize Toolchain.outside wheel target).Agrees (answer o) Drawn (Twin k) k.Due :=
  (Work.agrees_log steady _ _).bind fun _ =>
    ((Files.agrees_makeDirs steady target).await (prompt steady)).bind fun _ =>
    (Work.agrees_ofExcept _).bind fun _ =>
    ((Toolchain.agrees_outside steady ha).mapError _).bind fun _ => Work.agrees_log steady _ _

theorem agrees_refreshEnvironment {project : String} {wheel : Wheel}
    (asks : asked (.isInstalled project)) (removes : asked (.uninstall project))
    (installs : asked (.install wheel.path)) :
    (refreshEnvironment Toolchain.outside project wheel).Agrees (answer o) Drawn (Twin k) k.Due := by
  have removed (installed : Bool) :
      (removeInstalled Toolchain.outside project installed).Agrees (answer o) Drawn (Twin k) k.Due := by
    cases installed with
    | true => exact (Work.agrees_log steady _ _).bind fun _ =>
        (Toolchain.agrees_outside steady removes).mapError _
    | false => exact Work.agrees_log steady _ _
  have fresh : (installWheel Toolchain.outside project wheel).Agrees (answer o) Drawn (Twin k) k.Due :=
    (Work.agrees_log steady _ _).bind fun _ =>
      ((Toolchain.agrees_outside steady installs).mapError _).bind fun _ =>
        Work.agrees_log steady _ _
  exact ((Toolchain.agrees_outside steady asks).mapError _).bind fun installed =>
    (removed installed).bind fun _ => fresh.bind fun _ => Work.agrees_pure _

end

end

/-! ### Stages -/

variable {α β : Type} {k : Kinship} {asked : Call → Prop} {o : Outside} {s : Settings}
  {p p' : Progress}

/-- The same failure, but the stages before it may have taken other times, and a hidden file may have
another name. -/
structure Failure.Like (f f' : Failure) : Prop where
  stage : f.stage = f'.stage
  cause : Archive.Like f.cause f'.cause
  completed : f.completed.map (·.stage) = f'.completed.map (·.stage)

/-- The report without its times. -/
def Report.untimed (r : Report) : Report :=
  { r with startedAt := 0, stages := r.stages.map fun record => { record with duration := 0 } }

/-- Runs have come as far as each other. -/
structure Progress.Like (p p' : Progress) : Prop where
  state : p.state = p'.state
  completed : p.completed.map (·.stage) = p'.completed.map (·.stage)
  workspace : p.workspace = p'.workspace

/-- Two parts of runs have the same outcome, and the runs have come as far as each other. -/
def Steps.Alike (T : α → β → Prop) (r : Except Failure α × Progress)
    (r' : Except Failure β × Progress) : Prop :=
  Paired Failure.Like T r.1 r'.1 ∧ r.2.Like r'.2

namespace Pipeline

variable (steady : o.Steady k asked) (timed : s.stageTimeout.isSome → k.timed)

include steady

theorem kin_atWork (stage : Stage) {S : Disk → Disk → Prop} {m m' : Machine} (h : Kin k S m m') :
    Kin k S (atWork (answer o) stage m) (atWork (answer o) stage m') := by
  have logged : Kin k S (answer o (.log .info stage.announcement) m).2
      (answer o (.log .info stage.announcement) m').2 := { h.step steady with }
  exact logged.step steady

theorem due_atWork {limit : Option Nat} (timed : limit.isSome → k.timed) (stage : Stage)
    {S : Disk → Disk → Prop} {m m' : Machine} (h : Kin k S m m') :
    k.Due (deadlineOf (answer o) limit stage m) (deadlineOf (answer o) limit stage m') := by
  cases limit with
  | none => exact .never
  | some limit =>
    have lead := (kin_atWork steady stage h).clock (timed rfl)
    refine .at (timed rfl) ?_
    change (((atWork (answer o) stage m').time + limit : Nat) : Int) =
      (((atWork (answer o) stage m).time + limit : Nat) : Int) + k.lead
    omega

/-- A stage goes the same way on two machines if its work does and leaves twins. -/
theorem abreast_stage_at {limit : Option Nat} (stage : Stage) {work : Work α} {m m' : Machine}
    (hw : (work (deadlineOf (answer o) limit stage m)).Abreast (answer o) Drawn
      (fun n n' => n = atWork (answer o) stage m ∧ n' = atWork (answer o) stage m')
      (work (deadlineOf (answer o) limit stage m'))
      fun r n r' n' => Paired Archive.StopsLike Eq r r' ∧ Twin k n n') (hp : p.Like p') :
    (Pipeline.stage limit stage work p).Abreast (answer o) Drawn (fun n n' => n = m ∧ n' = m')
      (Pipeline.stage limit stage work p') fun r n r' n' =>
        Steps.Alike Eq r r' ∧ Twin k n n' := by
  refine Abreast.after rfl (Abreast.after rfl (Abreast.bind hw fun r r' => ?_))
  rintro n n' ⟨paired, h⟩
  cases paired with
  | @error stop stop' like =>
    refine abreast_done (fun _ _ h => ⟨⟨.error ⟨rfl, ?_, hp.completed⟩, rfl, hp.completed,
      hp.workspace⟩, h⟩) n n' h
    cases like with
    | late => exact .same _
    | failed like => exact like
  | @ok a _ same =>
    subst same
    refine Abreast.bind (abreast_clock steady) (fun finished finished' => ?_) n n' h
    rintro l l' ⟨-, h⟩
    refine Abreast.bind (abreast_log steady _ _ _ _) (fun _ _ => ?_) l l' h
    refine abreast_done fun _ _ h => ⟨⟨.ok rfl, rfl, ?_, hp.workspace⟩, h⟩
    simp [hp.completed]

/-- A stage goes the same way on twins if its work does. -/
theorem abreast_stage {limit : Option Nat} (timed : limit.isSome → k.timed) (stage : Stage)
    {work : Work α} {S : Disk → Disk → Prop}
    (hw : ∀ deadline deadline', k.Due deadline deadline' →
      (work deadline).Abreast (answer o) Drawn (Kin k S) (work deadline') fun r n r' n' =>
        Paired Archive.StopsLike Eq r r' ∧ Twin k n n') (hp : p.Like p') :
    (Pipeline.stage limit stage work p).Abreast (answer o) Drawn (Kin k S)
      (Pipeline.stage limit stage work p') fun r n r' n' =>
        Steps.Alike Eq r r' ∧ Twin k n n' := by
  intro m m' h
  refine abreast_stage_at steady stage ((hw _ _ (due_atWork steady timed stage h)).pre ?_) hp m m'
    ⟨rfl, rfl⟩
  rintro _ _ ⟨rfl, rfl⟩
  exact kin_atWork steady stage h

omit steady in
/-- Work that agrees on twins ends on them in the same way. -/
theorem paired_of_agrees {work : Work α} (hw : work.Agrees (answer o) Drawn (Twin k) k.Due)
    (deadline deadline' : Option Nat) (due : k.Due deadline deadline') :
    (work deadline).Abreast (answer o) Drawn (Twin k) (work deadline') fun r n r' n' =>
      Paired Archive.StopsLike Eq r r' ∧ Twin k n n' := by
  refine (hw deadline deadline' due).mono ?_
  rintro r n r' n' ⟨rfl, h⟩
  refine ⟨?_, h⟩
  cases r with
  | ok a => exact .ok rfl
  | error stop => exact .error (.refl stop)

omit steady in
/-- What follows parts of runs whose results correspond. -/
theorem abreast_steps_next {γ δ : Type} {x : Steps α} {x' : Steps β} {f : α → Steps γ}
    {f' : β → Steps δ} {R : Machine → Machine → Prop} {S : α → β → Prop} {T : γ → δ → Prop}
    (hx : (x p).Abreast (answer o) Drawn R (x' p') fun r n r' n' =>
      Steps.Alike S r r' ∧ Twin k n n')
    (hf : ∀ a b q q', S a b → q.Like q' → (f a q).Abreast (answer o) Drawn (Twin k) (f' b q')
      fun r n r' n' => Steps.Alike T r r' ∧ Twin k n n') :
    ((x >>= f) p).Abreast (answer o) Drawn R ((x' >>= f') p') fun r n r' n' =>
      Steps.Alike T r r' ∧ Twin k n n' := by
  refine Abreast.bind hx fun r r' => ?_
  obtain ⟨r, q⟩ := r
  obtain ⟨r', q'⟩ := r'
  rintro n n' ⟨⟨paired, like⟩, h⟩
  cases paired with
  | error failed => exact abreast_done (fun _ _ h => ⟨⟨.error failed, like⟩, h⟩) n n' h
  | ok same => exact hf _ _ q q' same like n n' h

omit steady in
/-- What follows a part of a run goes the same way if that part does. -/
theorem abreast_steps_bind {γ : Type} {x : Steps α} {f : α → Steps β} {f' : α → Steps γ}
    {R : Machine → Machine → Prop} {T : β → γ → Prop}
    (hx : (x p).Abreast (answer o) Drawn R (x p') fun r n r' n' =>
      Steps.Alike Eq r r' ∧ Twin k n n')
    (hf : ∀ a q q', q.Like q' → (f a q).Abreast (answer o) Drawn (Twin k) (f' a q')
      fun r n r' n' => Steps.Alike T r r' ∧ Twin k n n') :
    ((x >>= f) p).Abreast (answer o) Drawn R ((x >>= f') p') fun r n r' n' =>
      Steps.Alike T r r' ∧ Twin k n n' := by
  refine abreast_steps_next hx fun a b q q' same like => ?_
  subst same
  exact hf a q q' like

/-- What the last stage gets from the stages before it. -/
structure Shipment where
  wheel : Wheel
  treeDigest : String
  archive : Archive.Summary

/-- The stages from the build to the archive. -/
def shipping (s : Settings) (t : Toolchain) (workspace : Workspace) : Steps Shipment := do
  let wheel ← stage s.stageTimeout .build (buildWheel t s.source s.dist s.project)
  let treeDigest ← stage s.stageTimeout .materialize (install t s workspace wheel)
  let archive ← stage s.stageTimeout .archive (Archive.write workspace.target s.output)
  return ⟨wheel, treeDigest, archive⟩

omit steady in
theorem steps_bind_assoc {γ : Type} (x : Steps α) (f : α → Steps β) (g : β → Steps γ) :
    (x >>= f) >>= g = x >>= fun a => f a >>= g := by
  funext p
  change ((x p).bind _).bind _ = (x p).bind _
  rw [Program.bind_assoc]
  refine congrArg (x p).bind (funext fun r => ?_)
  obtain ⟨_ | a, q⟩ := r <;> rfl

omit steady in
theorem laterStages_eq (s : Settings) (t : Toolchain) (startedAt : Nat) (workspace : Workspace) :
    laterStages s t startedAt workspace = shipping s t workspace >>= fun shipment =>
      finish s t startedAt workspace shipment.wheel shipment.treeDigest shipment.archive := by
  unfold laterStages shipping
  rw [steps_bind_assoc]
  refine congrArg (stage s.stageTimeout .build _ >>= ·) (funext fun wheel => ?_)
  rw [steps_bind_assoc]
  refine congrArg (stage s.stageTimeout .materialize _ >>= ·) (funext fun treeDigest => ?_)
  rw [steps_bind_assoc]
  rfl

/-- Twins ship the same archive, or fail at it in the same way. -/
theorem abreast_shipping (timed : s.stageTimeout.isSome → k.timed) (laid : s.Laid)
    (hne : s.output.names ≠ []) (builds : asked (.build s.source s.dist))
    (installs : ∀ wheel target, asked (.installInto wheel target)) (hp : p.Like p') :
    (shipping s Toolchain.outside ⟨s.workspace⟩ p).Abreast (answer o) Drawn (Twin k)
      (shipping s Toolchain.outside ⟨s.workspace⟩ p') fun r n r' n' =>
        Steps.Alike Eq r r' ∧ Twin k n n' := by
  have built := paired_of_agrees (agrees_buildWheel steady s.project builds)
  refine abreast_steps_bind (abreast_stage steady timed .build built hp) fun wheel p p' hp => ?_
  have materialized : (install Toolchain.outside s ⟨s.workspace⟩ wheel).Agrees (answer o) Drawn
      (Twin k) k.Due :=
    (agrees_materialize steady (installs _ _)).bind fun _ => Archive.agrees_treeDigest steady _
  have installed := paired_of_agrees materialized
  refine abreast_steps_bind (abreast_stage steady timed .materialize installed hp)
    fun digest p p' hp => ?_
  obtain ⟨up, last, hout⟩ : ∃ up last, s.output.names = up ++ [last] :=
    ⟨_, _, (List.dropLast_concat_getLast hne).symm⟩
  have written (deadline deadline' : Option Nat) (due : k.Due deadline deadline') :
      (Archive.write (⟨s.workspace⟩ : Workspace).target s.output deadline).Abreast (answer o) Drawn
        (Twin k) (Archive.write (⟨s.workspace⟩ : Workspace).target s.output deadline')
          fun r n r' n' => Paired Archive.StopsLike Eq r r' ∧ Twin k n n' := by
    have proper := laid.output.proper
    rw [target_ofNames laid, laid.written.2, hout]
    rw [hout] at proper
    refine Archive.abreast_write steady (fun n hn => ?_) (by simp) proper due
    rcases List.mem_append.mp hn with hn | hn
    · exact laid.workspace.proper n hn
    · exact List.mem_singleton.mp hn ▸ Workspace.properName_target
  refine abreast_steps_bind (abreast_stage steady timed .archive written hp)
    fun archive p p' hp => ?_
  exact abreast_done fun _ _ h => ⟨⟨.ok rfl, hp⟩, h⟩

/-- Twins refresh their environments in the same way, and report the same. -/
theorem abreast_finish (timed : s.stageTimeout.isSome → k.timed) (asks : ∀ call, asked call)
    (startedAt startedAt' : Nat) (workspace : Workspace) (wheel : Wheel) (treeDigest : String)
    (archive : Archive.Summary) (hp : p.Like p') :
    (finish s Toolchain.outside startedAt workspace wheel treeDigest archive p).Abreast (answer o)
      Drawn (Twin k) (finish s Toolchain.outside startedAt' workspace wheel treeDigest archive p')
        fun r n r' n' => Steps.Alike (fun a b => a.untimed = b.untimed) r r' ∧ Twin k n n' := by
  have reconciled : (reconcile Toolchain.outside s wheel p).Abreast (answer o) Drawn (Twin k)
      (reconcile Toolchain.outside s wheel p') fun r n r' n' => Steps.Alike Eq r r' ∧ Twin k n n' := by
    unfold reconcile
    cases s.reconcile with
    | false =>
      have logged : (Steps.now (request (.log .info
          "Skipping reconcile; the active environment is left unchanged")) p).Abreast (answer o) Drawn
          (Twin k) (Steps.now (request (.log .info
            "Skipping reconcile; the active environment is left unchanged")) p')
            fun r n r' n' => Steps.Alike Eq r r' ∧ Twin k n n' :=
        Abreast.bind (abreast_log steady _ _ _ _) fun _ _ => abreast_done fun _ _ h =>
          ⟨⟨.ok rfl, hp⟩, h⟩
      exact abreast_steps_bind logged fun _ q q' hq => abreast_done fun _ _ h => ⟨⟨.ok rfl, hq⟩, h⟩
    | true =>
      have refreshed := paired_of_agrees (agrees_refreshEnvironment steady (asks (.isInstalled s.project))
        (asks (.uninstall s.project)) (asks (.install wheel.path)))
      exact abreast_steps_bind (abreast_stage steady timed .reconcile refreshed hp)
        fun replaced q q' hq => abreast_done fun _ _ h => ⟨⟨.ok rfl, hq⟩, h⟩
  refine abreast_steps_bind reconciled fun replaced q q' hq => ?_
  refine abreast_done fun _ _ h => ⟨⟨.ok ?_, rfl, hq.completed, hq.workspace⟩, h⟩
  have zeroed (stages : List StageRecord) : stages.map (fun record => { record with duration := 0 }) =
      (stages.map (·.stage)).map fun stage => ⟨stage, 0⟩ := by
    rw [List.map_map]
    rfl
  unfold Report.untimed
  simp only [zeroed, hq.completed]

theorem agrees_cleanUp (workspace : Option Workspace) :
    (cleanUp s workspace).Agrees (answer o) Drawn (Twin k) := by
  cases workspace with
  | none => exact agrees_done ()
  | some workspace =>
    change (if s.keepWorkspace then _ else _ : Program Unit).Agrees _ _ _
    split
    · exact agrees_log steady _ _
    · have removed : workspace.cleanup.Agrees (answer o) Drawn (Twin k) :=
        (Files.agrees_removePath steady workspace.root).bind fun _ => agrees_done _
      refine removed.bind fun r => ?_
      cases r with
      | ok => exact agrees_done ()
      | error e => exact agrees_log steady _ _

theorem abreast_logOutcome (r r' : Except Failure Report) :
    (logOutcome r).Abreast (answer o) Drawn (Twin k) (logOutcome r') fun _ n _ n' => Twin k n n' := by
  cases r <;> cases r' <;> exact abreast_log steady _ _ _ _

end Pipeline

end LayerPack
