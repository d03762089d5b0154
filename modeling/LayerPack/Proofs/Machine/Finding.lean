import LayerPack.Proofs.Machine.Twin

/-! Programs whose runs on a machine are known in advance, as a result and a disk that depend on the
disk alone. Many only look around: what such a program finds is a value, and nothing has changed when
it has been found. -/
namespace LayerPack

open Machine

variable {α β : Type} {k : Kinship} {asked : Call → Prop} {o : Outside} {m m' n : Machine}
  {deeds deeds' : List Deed} {d d' : Disk}

/-- The deadline is still to come, and it comes only if time counts. -/
def Machine.Early (k : Kinship) (deadline : Option Nat) (m : Machine) : Prop :=
  ∀ limit ∈ deadline, k.timed ∧ m.time < limit

/-- Without failures, what is not asked of others can be found. -/
theorem Outside.steady_of_sound (sound : ∀ n, o.fault n = none) :
    o.Steady ⟨false, false, 0⟩ fun _ => False where
  sound := sound
  swift := fun h => by cases h
  alike _ h := h.elim

namespace Program

/-- The run ends with this result and this disk, it does what others can tell, and it changes nothing
else that counts. -/
def Does (o : Outside) (k : Kinship) (m : Machine) (p : Program α) (result : α) (deeds : List Deed)
    (d : Disk) : Prop :=
  p.Ends (answer o) m fun r es n =>
    r = result ∧ deedsOf es = deeds ∧ Lapsed k m n ∧ n.disk = d

/-- The run ends with this result, and it neither does nor changes anything. -/
abbrev Finds (o : Outside) (k : Kinship) (m : Machine) (p : Program α) (found : α) : Prop :=
  p.Does o k m found [] m.disk

theorem does_done {a : α} (h : m.disk = d) : (done a).Does o k m a [] d := ⟨rfl, rfl, .refl m, h⟩

theorem finds_done (a : α) : (done a).Finds o k m a := does_done rfl

theorem Does.bind {p : Program α} {f : α → Program β} {a : α} {b : β} (h : p.Does o k m a deeds d)
    (hf : ∀ n, Lapsed k m n → n.disk = d → (f a).Does o k n b deeds' d') :
    (p.bind f).Does o k m b (deeds ++ deeds') d' := by
  refine Ends.bind h ?_
  rintro _ es n ⟨rfl, hdeeds, lapsed, disk⟩
  refine (hf n lapsed disk).mono ?_
  rintro _ es' n' ⟨rfl, hdeeds', lapsed', disk'⟩
  exact ⟨rfl, by rw [deedsOf_append, hdeeds, hdeeds'], lapsed.trans lapsed', disk'⟩

/-- What follows a program that only looks around is as if it came first. -/
theorem Does.after {p : Program α} {f : α → Program β} {a : α} {b : β} (h : p.Finds o k m a)
    (hf : ∀ n, Lapsed k m n → n.disk = m.disk → (f a).Does o k n b deeds d) :
    (p.bind f).Does o k m b deeds d := Does.bind h hf

theorem Finds.bind {p : Program α} {f : α → Program β} {a : α} {b : β} (h : p.Finds o k m a)
    (hf : ∀ n, Lapsed k m n → n.disk = m.disk → (f a).Finds o k n b) : (p.bind f).Finds o k m b :=
  Does.after h fun n lapsed disk => disk ▸ hf n lapsed disk

theorem does_request {q : Request} {r : q.Reply} (h : (answer o q m).1 = r ∧
      Lapsed k m (answer o q m).2 ∧ (answer o q m).2.disk = d) :
    (request q).Does o k m r q.deed?.toList d := by
  refine ⟨h.1, ?_, h.2⟩
  change List.filterMap (·.1.deed?) [(q, m)] = _
  cases hd : q.deed? <;> simp [hd]

theorem finds_request {q : Request} {r : q.Reply} (hd : q.deed? = none)
    (h : (answer o q m).1 = r ∧ Lapsed k m (answer o q m).2 ∧ (answer o q m).2.disk = m.disk) :
    (request q).Finds o k m r := by
  have does := does_request h
  rwa [hd] at does

section

variable (steady : o.Steady k asked)

include steady

theorem reading_steady {ε : Type} (m : Machine) (r : Except SystemError ε) :
    (reading (o.fault m.ticks) (m.step (o.delay m.ticks)) r).1 = r ∧
      Lapsed k m (reading (o.fault m.ticks) (m.step (o.delay m.ticks)) r).2 ∧
      (reading (o.fault m.ticks) (m.step (o.delay m.ticks)) r).2.disk = m.disk := by
  rw [steady.sound]
  exact ⟨rfl, lapsed_step steady m, rfl⟩

theorem finds_stat (follow : Bool) (p : Path) :
    (request (.stat follow p)).Finds o k m (m.disk.stat m.cwd follow p) :=
  finds_request rfl (reading_steady steady m _)

theorem finds_list (p : Path) : (request (.list p)).Finds o k m (m.disk.list m.cwd p) :=
  finds_request rfl (reading_steady steady m _)

theorem finds_snapshot (p : Path) :
    (request (.snapshot p)).Finds o k m (m.disk.snapshot m.cwd p) :=
  finds_request rfl (reading_steady steady m _)

theorem finds_kindIs (kind : Kind) (p : Path) :
    (Files.kindIs kind p).Finds o k m (decide (m.disk.kind? m.cwd true p = some kind)) := by
  refine Finds.bind (finds_stat steady true p) fun n _ _ => ?_
  unfold Disk.stat Disk.kind?
  rcases m.disk.resolve m.cwd true p with e | ⟨place, node⟩
  · exact finds_done _
  · cases node <;> cases kind <;> exact finds_done _

theorem finds_openRead (p : Path) :
    (request (.openRead p)).Finds o k m (m.disk.openRead m.cwd p) :=
  finds_request rfl (reading_steady steady m _)

/-- A read returns something if there is something to be read. -/
theorem finds_read (file : OpenFile) (buffer : Nat) :
    (request (.read file buffer)).Finds o k m (readable file (o.grant m.ticks buffer)) :=
  finds_request rfl (reading_steady steady m _)

theorem finds_sync (handle : Handle) : (request (.sync handle)).Finds o k m (.ok ()) :=
  finds_request rfl (reading_steady steady m _)

theorem finds_log (level : Level) (text : String) : (request (.log level text)).Finds o k m () := by
  refine finds_request rfl ⟨rfl, ?_, rfl⟩
  exact { lapsed_step steady m with }

/-- The disk changes as it can, or not at all. -/
theorem changing_steady (m : Machine) (r : Except SystemError Disk) :
    (changing (o.fault m.ticks) (m.step (o.delay m.ticks)) r).1 = r.map (fun _ => ()) ∧
      Lapsed k m (changing (o.fault m.ticks) (m.step (o.delay m.ticks)) r).2 ∧
      (changing (o.fault m.ticks) (m.step (o.delay m.ticks)) r).2.disk = r.toOption.getD m.disk := by
  rw [steady.sound]
  cases r with
  | error e => exact ⟨rfl, lapsed_step steady m, rfl⟩
  | ok d => exact ⟨rfl, { lapsed_step steady m with }, rfl⟩

theorem does_unlink (p : Path) : (request (.unlink p)).Does o k m
    ((m.disk.unlink m.cwd p).map fun _ => ()) [] ((m.disk.unlink m.cwd p).toOption.getD m.disk) :=
  does_request (changing_steady steady m _)

theorem does_removeTree (p : Path) : (request (.removeTree p)).Does o k m
    (m.disk.removeTree m.cwd p).1 [] (m.disk.removeTree m.cwd p).2 := by
  refine does_request ?_
  change (removingTree (o.fault m.ticks) (m.step (o.delay m.ticks)) p).1 = _ ∧
    Lapsed k m (removingTree (o.fault m.ticks) (m.step (o.delay m.ticks)) p).2 ∧
    (removingTree (o.fault m.ticks) (m.step (o.delay m.ticks)) p).2.disk = _
  rw [steady.sound]
  exact ⟨rfl, { lapsed_step steady m with }, rfl⟩

theorem does_rename (src dst : Path) : (request (.rename src dst)).Does o k m
    ((m.disk.rename m.cwd src dst).map fun _ => ()) []
      ((m.disk.rename m.cwd src dst).toOption.getD m.disk) :=
  does_request (changing_steady steady m _)

theorem does_append (handle : Handle) (bytes : ByteArray) :
    (request (.append handle bytes)).Does o k m (.ok ()) [.wrote bytes]
      (m.disk.append handle bytes) :=
  does_request (changing_steady steady m (.ok (m.disk.append handle bytes)))

theorem does_openWrite (truncate : Bool) (p : Path) :
    (request (.openWrite truncate p)).Does o k m ((m.disk.openWrite m.cwd truncate p).map (·.1)) []
      (((m.disk.openWrite m.cwd truncate p).map (·.2)).toOption.getD m.disk) := by
  refine does_request ?_
  change (opening (o.fault m.ticks) (m.step (o.delay m.ticks))
      (m.disk.openWrite m.cwd truncate p)).1 = _ ∧
    Lapsed k m (opening (o.fault m.ticks) (m.step (o.delay m.ticks))
      (m.disk.openWrite m.cwd truncate p)).2 ∧
    (opening (o.fault m.ticks) (m.step (o.delay m.ticks))
      (m.disk.openWrite m.cwd truncate p)).2.disk = _
  rw [steady.sound]
  rcases m.disk.openWrite m.cwd truncate p with e | ⟨handle, d⟩
  · exact ⟨rfl, lapsed_step steady m, rfl⟩
  · exact ⟨rfl, { lapsed_step steady m with }, rfl⟩

/-- Where time counts, nothing takes any, and the deadline has struck or it does not strike. -/
theorem finds_isLate {deadline : Option Nat} (timed : ∀ limit ∈ deadline, k.timed) :
    (Work.isLate deadline).Finds o k m (deadline.any (· ≤ m.time)) := by
  cases deadline with
  | none => exact finds_done false
  | some limit =>
    have swift : (m.step (o.delay m.ticks)).time = m.time := (lapsed_step steady m).clock (timed limit rfl)
    have clock : (request .clock).Finds o k m m.time :=
      finds_request rfl ⟨swift, lapsed_step steady m, rfl⟩
    exact Finds.bind clock fun n _ _ => finds_done _

/-- What is waited for in time is done. -/
theorem Does.await {p : Program α} {a : α} {deadline : Option Nat} (early : m.Early k deadline)
    (h : ∀ n, Lapsed k m n → n.disk = m.disk → p.Does o k n a deeds d) :
    (Work.await p deadline).Does o k m (.ok a) deeds d := by
  have inTime {n : Machine} (lapsed : Lapsed k m n) : (Work.isLate deadline).Finds o k n false := by
    have found := finds_isLate steady (m := n) fun limit hl => (early limit hl).1
    have not : deadline.any (fun limit => decide (limit ≤ n.time)) = false := by
      cases deadline with
      | none => rfl
      | some limit =>
        obtain ⟨timed, before⟩ := early limit rfl
        have := lapsed.clock timed
        simp only [Option.any_some, decide_eq_false_iff_not]
        omega
    rwa [not] at found
  refine Does.after (inTime (.refl m)) fun n lapsed disk => ?_
  rw [← List.append_nil deeds]
  refine Does.bind (h n lapsed disk) fun l lapsed' disk' => ?_
  exact Does.after (inTime (lapsed.trans lapsed')) fun _ _ same => does_done (same.trans disk')

end

/-- What follows work that only looks around is as if it came first. -/
theorem Finds.work_bind {w : Work α} {f : α → Work β} {a : α} {r : Except Stop β}
    {deadline : Option Nat} (h : (w deadline).Finds o k m (.ok a))
    (hf : ∀ n, Lapsed k m n → n.disk = m.disk → (f a deadline).Finds o k n r) :
    ((w >>= f) deadline).Finds o k m r := Finds.bind h hf

theorem Finds.now {p : Program α} {a : α} (h : p.Finds o k m a) (deadline : Option Nat) :
    (Work.now p deadline).Finds o k m (.ok a) := Finds.bind h fun _ _ _ => finds_done _

/-- Runs that are known in advance leave machines that have the known disks and are kin as before. -/
theorem Does.beside {p : Program α} {p' : Program β} {a : α} {b : β} {S : Disk → Disk → Prop}
    (hm : Kin k S m m') (h : p.Does o k m a deeds d) (h' : p'.Does o k m' b deeds d') :
    p.Ends (answer o) m fun r es n => p'.Ends (answer o) m' fun r' es' n' =>
      deedsOf es = deedsOf es' ∧ r = a ∧ r' = b ∧ Kin k (fun e e' => e = d ∧ e' = d') n n' := by
  obtain ⟨hr, hdeeds, lapsed, disk⟩ := h
  obtain ⟨hr', hdeeds', lapsed', disk'⟩ := h'
  exact ⟨hdeeds.trans hdeeds'.symm, hr, hr', hm.lapse lapsed lapsed' ⟨disk, disk'⟩⟩

/-- Runs that are known in advance can be compared. -/
theorem Does.abreast {p : Program α} {p' : Program β} {S : Disk → Disk → Prop}
    {Q : α → Machine → β → Machine → Prop}
    (h : ∀ m m', Kin k S m m' → ∃ a b deeds d d', p.Does o k m a deeds d ∧
      p'.Does o k m' b deeds d' ∧ ∀ n n', Kin k (fun e e' => e = d ∧ e' = d') n n' → Q a n b n') :
    p.Abreast (answer o) Drawn (Kin k S) p' Q := by
  intro m m' hm _
  obtain ⟨a, b, deeds, d, d', does, does', post⟩ := h m m' hm
  obtain ⟨same, rfl, rfl, kin⟩ := Does.beside hm does does'
  exact ⟨same, post _ _ kin⟩

/-- What is found on twins can be compared, and they stay twins. -/
theorem Finds.abreast {p : Program α} {p' : Program β} {S : Disk → Disk → Prop}
    {Q : α → Machine → β → Machine → Prop}
    (h : ∀ m m', Kin k S m m' → ∃ a b, p.Finds o k m a ∧ p'.Finds o k m' b ∧
      ∀ n n', Kin k S n n' → Q a n b n') : p.Abreast (answer o) Drawn (Kin k S) p' Q := by
  refine Does.abreast fun m m' hm => ?_
  obtain ⟨a, b, found, found', post⟩ := h m m' hm
  refine ⟨a, b, [], m.disk, m'.disk, found, found', fun n n' hn => post n n' { hn with disk := ?_ }⟩
  rw [hn.disk.1, hn.disk.2]
  exact hm.disk

end Program

end LayerPack
