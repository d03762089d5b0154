import LayerPack.Proofs.Disk.Listing
import LayerPack.Proofs.Machine.Form
import LayerPack.Proofs.Program.Abreast

/-! Twin machines: nothing that a run asks for tells them apart but names that nobody has used and
readings of the clock. A request that is made of both is answered alike, and it leaves twins, as long
as the outside goes by what twins have in common. -/
namespace LayerPack

open Program Machine

/-- What is asked of twins besides the same disk. -/
structure Kinship where
  /-- Their clocks go at the same pace. -/
  timed : Bool
  /-- The same is installed in their environments. -/
  installed : Bool
  /-- How far the second clock is ahead of the first one. -/
  lead : Int

/-- Two well-formed disks of which the same is told. -/
structure Disk.Twins (d d' : Disk) : Prop where
  alike : d.Alike d'
  form : d.root.WellFormed
  form' : d'.root.WellFormed

/-- Two machines that have all in common that counts, and disks that are related. -/
structure Machine.Kin (k : Kinship) (S : Disk → Disk → Prop) (m m' : Machine) : Prop where
  disk : S m.disk m'.disk
  cwd : m'.cwd = m.cwd
  environment : m'.environment = m.environment
  installed : k.installed → m'.installed = m.installed
  clock : k.timed → (m'.time : Int) = m.time + k.lead

/-- Two machines on which a run finds the same, as far as it can tell. -/
abbrev Machine.Twin (k : Kinship) : Machine → Machine → Prop := Machine.Kin k Disk.Twins

/-- From one machine to another nothing has changed that counts, but maybe the disk. -/
structure Machine.Lapsed (k : Kinship) (m n : Machine) : Prop where
  cwd : n.cwd = m.cwd
  environment : n.environment = m.environment
  installed : n.installed = m.installed
  clock : k.timed → n.time = m.time

/-- Deadlines that strike at the same time on twins. -/
inductive Kinship.Due (k : Kinship) : Option Nat → Option Nat → Prop
  | never : Due k none none
  | at {time time' : Nat} (timed : k.timed) (lead : (time' : Int) = time + k.lead) :
    Due k (some time) (some time')

/-- A fresh name has as many bytes as it is to have. -/
def Machine.Drawn : Request × Machine → Prop
  | (.freshName, m) => (Bytes.ofString (freshName m.disk m.ticks)).length = 36
  | _ => True

instance : DecidablePred Machine.Drawn := fun e =>
  let fresh : Request → Bool
    | .freshName => true
    | _ => false
  decidable_of_iff
    (fresh e.1 = true → (Bytes.ofString (Machine.freshName e.2.disk e.2.ticks)).length = 36) (by
      obtain ⟨q, m⟩ := e
      cases q <;> simp [fresh, Machine.Drawn])

/-- No request fails without a reason on the disk, requests take no time where time counts, and the
calls that the collaborators are asked for are answered by what twins have in common. -/
structure Outside.Steady (o : Outside) (k : Kinship) (asked : Call → Prop) : Prop where
  sound : ∀ n, o.fault n = none
  swift : k.timed → ∀ n, o.delay n = 0
  alike : ∀ call, asked call → ∀ m m', Twin k m m' →
    (o.collaborate call m).1 = (o.collaborate call m').1 ∧
      Twin k (o.collaborate call m).2 (o.collaborate call m').2

namespace Machine

variable {k : Kinship} {asked : Call → Prop} {o : Outside} {S S' : Disk → Disk → Prop}
  {m m' n n' l : Machine}

theorem Lapsed.refl (m : Machine) : Lapsed k m m := ⟨rfl, rfl, rfl, fun _ => rfl⟩

theorem Lapsed.trans (h : Lapsed k m n) (h' : Lapsed k n l) : Lapsed k m l where
  cwd := h'.cwd.trans h.cwd
  environment := h'.environment.trans h.environment
  installed := h'.installed.trans h.installed
  clock timed := (h'.clock timed).trans (h.clock timed)

theorem lapsed_step (steady : o.Steady k asked) (m : Machine) :
    Lapsed k m (m.step (o.delay m.ticks)) where
  cwd := rfl
  environment := rfl
  installed := rfl
  clock timed := by simp only [Machine.step, steady.swift timed, Nat.add_zero]

/-- What lapses on two machines that are kin leaves them so, up to their disks. -/
theorem Kin.lapse (h : Kin k S m m') (hn : Lapsed k m n) (hn' : Lapsed k m' n')
    (disk : S' n.disk n'.disk) : Kin k S' n n' where
  disk := disk
  cwd := hn'.cwd.trans (h.cwd.trans hn.cwd.symm)
  environment := hn'.environment.trans (h.environment.trans hn.environment.symm)
  installed hi := hn'.installed.trans ((h.installed hi).trans hn.installed.symm)
  clock timed := by rw [hn.clock timed, hn'.clock timed, h.clock timed]

theorem Kin.step (steady : o.Steady k asked) (h : Kin k S m m') :
    Kin k S (m.step (o.delay m.ticks)) (m'.step (o.delay m'.ticks)) :=
  h.lapse (lapsed_step steady m) (lapsed_step steady m') h.disk

/-- What is read of the disks of twins is compared, and nothing changes. -/
theorem Kin.reading {α : Type} (steady : o.Steady k asked) (h : Kin k S m m')
    {answer answer' : Except SystemError α} {Q : Except SystemError α → Except SystemError α → Prop}
    (hq : Q answer answer') :
    Q (reading (o.fault m.ticks) (m.step (o.delay m.ticks)) answer).1
        (reading (o.fault m'.ticks) (m'.step (o.delay m'.ticks)) answer').1 ∧
      Kin k S (reading (o.fault m.ticks) (m.step (o.delay m.ticks)) answer).2
        (reading (o.fault m'.ticks) (m'.step (o.delay m'.ticks)) answer').2 := by
  simp only [Machine.reading, steady.sound]
  exact ⟨hq, h.step steady⟩

/-- Both disks are changed, to disks that are related, or for the same reason none is. -/
theorem Kin.changing (steady : o.Steady k asked) (h : Kin k S m m')
    {op op' : Except SystemError Disk} (both : Both S op op') :
    (changing (o.fault m.ticks) (m.step (o.delay m.ticks)) op).1 =
        (changing (o.fault m'.ticks) (m'.step (o.delay m'.ticks)) op').1 ∧
      Kin k S (changing (o.fault m.ticks) (m.step (o.delay m.ticks)) op).2
        (changing (o.fault m'.ticks) (m'.step (o.delay m'.ticks)) op').2 := by
  simp only [Machine.changing, steady.sound]
  cases both with
  | error e => exact ⟨rfl, h.step steady⟩
  | ok related => exact ⟨rfl, { h.step steady with disk := related }⟩

/-- Twins stay twins if their disks are changed alike. -/
theorem twins_of_alike {d d' : Disk} (h : d.Twins d') {op op' : Except SystemError Disk}
    (both : Both Disk.Alike op op') (tame : ∀ e, op = .ok e → d.Tame e)
    (tame' : ∀ e, op' = .ok e → d'.Tame e) : Both Disk.Twins op op' := by
  cases both with
  | error e => exact .error e
  | ok alike => exact .ok ⟨alike, (tame _ rfl).wellFormed h.form, (tame' _ rfl).wellFormed h.form'⟩

section Requests

variable (steady : o.Steady k asked)

include steady

theorem agrees_stat (follow : Bool) (p : Path) :
    (request (.stat follow p)).Agrees (answer o) Drawn (Twin k) :=
  abreast_request rfl fun m m' h => h.reading steady (Q := Eq) (by
    change m.disk.stat m.cwd follow p = m'.disk.stat m'.cwd follow p
    rw [h.cwd, h.disk.alike.stat])

theorem agrees_openRead (p : Path) : (request (.openRead p)).Agrees (answer o) Drawn (Twin k) :=
  abreast_request rfl fun m m' h => h.reading steady (Q := Eq) (by
    change m.disk.openRead m.cwd p = m'.disk.openRead m'.cwd p
    rw [h.cwd, h.disk.alike.openRead])

theorem agrees_mkdir (p : Path) : (request (.mkdir p)).Agrees (answer o) Drawn (Twin k) := by
  refine abreast_request rfl fun m m' h => h.changing steady ?_
  change Both Disk.Twins (m.disk.mkdir m.cwd p) (m'.disk.mkdir m'.cwd p)
  rw [h.cwd]
  exact twins_of_alike h.disk (h.disk.alike.mkdir m.cwd p) (fun _ => Disk.mkdir_tame)
    fun _ => Disk.mkdir_tame

theorem agrees_unlink (p : Path) : (request (.unlink p)).Agrees (answer o) Drawn (Twin k) := by
  refine abreast_request rfl fun m m' h => h.changing steady ?_
  change Both Disk.Twins (m.disk.unlink m.cwd p) (m'.disk.unlink m'.cwd p)
  rw [h.cwd]
  exact twins_of_alike h.disk (h.disk.alike.unlink h.disk.form h.disk.form' m.cwd p)
    (fun _ => Disk.unlink_tame) fun _ => Disk.unlink_tame

theorem agrees_removeTree (p : Path) : (request (.removeTree p)).Agrees (answer o) Drawn (Twin k) := by
  refine abreast_request rfl fun m m' h => ?_
  have removed := h.disk.alike.removeTree h.disk.form h.disk.form' m.cwd p
  have result : ∀ m : Machine, answer o (.removeTree p) m =
      ((m.disk.removeTree m.cwd p).1,
        { m.step (o.delay m.ticks) with disk := (m.disk.removeTree m.cwd p).2 }) := fun m => by
    change removingTree (o.fault m.ticks) (m.step (o.delay m.ticks)) p = _
    rw [steady.sound]
    rfl
  rw [result, result, h.cwd]
  exact ⟨removed.1, { h.step steady with disk := ⟨removed.2,
    Disk.removeTree_tame.wellFormed h.disk.form, Disk.removeTree_tame.wellFormed h.disk.form'⟩ }⟩

/-- What a directory lists may be in another order. -/
theorem abreast_list (p : Path) : (request (.list p)).Abreast (answer o) Drawn (Twin k) (request (.list p))
    fun r n r' n' => Both List.Perm r r' ∧ Twin k n n' :=
  abreast_request rfl fun m m' h => h.reading steady (Q := Both List.Perm) (by
    change Both List.Perm (m.disk.list m.cwd p) (m'.disk.list m'.cwd p)
    rw [h.cwd]
    exact h.disk.alike.list h.disk.form h.disk.form' m.cwd p)

theorem abreast_snapshot (p : Path) :
    (request (.snapshot p)).Abreast (answer o) Drawn (Twin k) (request (.snapshot p))
      fun r n r' n' => Both Node.Copies r r' ∧ Twin k n n' :=
  abreast_request rfl fun m m' h => h.reading steady (Q := Both Node.Copies) (by
    change Both Node.Copies (m.disk.snapshot m.cwd p) (m'.disk.snapshot m'.cwd p)
    rw [h.cwd]
    exact h.disk.alike.snapshot h.disk.form h.disk.form' m.cwd p)

/-- What a run logs makes no difference. -/
theorem abreast_log (level level' : Level) (text text' : String) :
    (request (.log level text)).Abreast (answer o) Drawn (Kin k S) (request (.log level' text'))
      fun _ n _ n' => Kin k S n n' :=
  abreast_request rfl fun m m' h => by
    have := h.step steady
    exact { this with }

theorem agrees_log (level : Level) (text : String) :
    (request (.log level text)).Agrees (answer o) Drawn (Kin k S) :=
  (abreast_log steady level level text text).mono fun _ _ _ _ h => ⟨rfl, h⟩

theorem abreast_clock : (request .clock).Abreast (answer o) Drawn (Kin k S) (request .clock)
    fun time n time' n' => (k.timed → (time' : Int) = time + k.lead) ∧ Kin k S n n' :=
  abreast_request rfl fun _ _ h => ⟨(h.step steady).clock, h.step steady⟩

/-- The deadlines of kin strike together. -/
theorem prompt : Work.Prompt (answer o) Drawn (Kin k S) k.Due := by
  intro deadline deadline' due
  cases due with
  | never => exact agrees_done false
  | @«at» limit limit' timed lead =>
    refine Abreast.bind (abreast_clock steady) fun time time' => abreast_done ?_
    rintro n n' ⟨clock, h⟩
    have := clock timed
    refine ⟨?_, h⟩
    simp only [decide_eq_decide]
    omega

end Requests

end Machine

theorem Work.agrees_log {k : Kinship} {asked : Call → Prop} {o : Outside}
    (steady : o.Steady k asked) (level : Level) (text : String) :
    (Work.now (request (.log level text))).Agrees (answer o) Drawn (Twin k) k.Due :=
  (Machine.agrees_log steady level text).now

end LayerPack
