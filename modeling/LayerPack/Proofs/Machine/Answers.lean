import LayerPack.Machine.Basic
import LayerPack.Proofs.Disk.Calls
import LayerPack.Proofs.Host.Requests

/-! How a machine answers. A quiet request leaves the disk and the current directory as they are,
and an operation that is answered with success has been done on the disk. -/
namespace LayerPack.Machine

variable {m m' m'' : Machine} {o : Outside} {fault : Option SystemError}

/-- The two machines have the same disk and the same current directory. -/
def Same (m m' : Machine) : Prop := m'.disk = m.disk ∧ m'.cwd = m.cwd

theorem Same.disk (h : Same m m') : m'.disk = m.disk := h.1

theorem Same.cwd (h : Same m m') : m'.cwd = m.cwd := h.2

theorem Same.refl (m : Machine) : Same m m := ⟨rfl, rfl⟩

theorem Same.trans (h : Same m m') (h' : Same m' m'') : Same m m'' :=
  ⟨h'.disk.trans h.disk, h'.cwd.trans h.cwd⟩

theorem same_step (m : Machine) (delay : Nat) : Same m (m.step delay) := ⟨rfl, rfl⟩

theorem same_reading {α : Type} (fault : Option SystemError) (m : Machine)
    (answer : Except SystemError α) : Same m (reading fault m answer).2 := by
  cases fault <;> exact .refl m

theorem same_quiet {q : Request} (h : q.Quiet) (o : Outside) (m : Machine) :
    Same m (answer o q m).2 := by
  cases q with
  | stat | list | snapshot | openRead | read | sync | workingDirectory =>
    exact (same_step m _).trans (same_reading _ _ _)
  | «variable» | clock | freshName | log => exact ⟨rfl, rfl⟩
  | mkdir | unlink | removeTree | rename | openWrite | append | lock | unlock | run | collaborate
  | print => exact h.elim

/-- A reading that succeeds has its answer from the disk. -/
theorem reading_ok {α : Type} {answer : Except SystemError α} {a : α}
    (h : (reading fault m answer).1 = .ok a) : answer = .ok a := by
  cases fault with
  | none => exact h
  | some e => cases h

/-- An operation was done on the disk, or it failed and the disk is as it was. -/
def Changed (m m' : Machine) (op : Except SystemError Disk) (r : Except SystemError Unit) : Prop :=
  r = .ok () ∧ op = .ok m'.disk ∧ m'.cwd = m.cwd ∨ (∃ e, r = .error e) ∧ Same m m'

theorem changed_changing (fault : Option SystemError) (m : Machine)
    (op : Except SystemError Disk) :
    Changed m (changing fault m op).2 op (changing fault m op).1 := by
  cases fault with
  | some e => exact .inr ⟨⟨e, rfl⟩, .refl m⟩
  | none =>
    cases op with
    | error e => exact .inr ⟨⟨e, rfl⟩, .refl m⟩
    | ok disk => exact .inl ⟨rfl, rfl, rfl⟩

variable (o : Outside) (m : Machine)

theorem changed_mkdir (p : Path) :
    Changed m (answer o (.mkdir p) m).2 (m.disk.mkdir m.cwd p) (answer o (.mkdir p) m).1 :=
  changed_changing (o.fault m.ticks) (m.step (o.delay m.ticks)) (m.disk.mkdir m.cwd p)

theorem changed_unlink (p : Path) :
    Changed m (answer o (.unlink p) m).2 (m.disk.unlink m.cwd p) (answer o (.unlink p) m).1 :=
  changed_changing (o.fault m.ticks) (m.step (o.delay m.ticks)) (m.disk.unlink m.cwd p)

theorem changed_rename (src dst : Path) :
    Changed m (answer o (.rename src dst) m).2 (m.disk.rename m.cwd src dst)
      (answer o (.rename src dst) m).1 :=
  changed_changing (o.fault m.ticks) (m.step (o.delay m.ticks)) (m.disk.rename m.cwd src dst)

theorem changed_append (handle : Handle) (bytes : ByteArray) :
    Changed m (answer o (.append handle bytes) m).2 (.ok (m.disk.append handle bytes))
      (answer o (.append handle bytes) m).1 :=
  changed_changing (o.fault m.ticks) (m.step (o.delay m.ticks)) (.ok (m.disk.append handle bytes))

/-- A removal of a tree may fail half way. -/
theorem removeTree_cases (p : Path) :
    ((answer o (.removeTree p) m).2.disk = (m.disk.removeTree m.cwd p).2 ∨
      (answer o (.removeTree p) m).2.disk = m.disk) ∧
      (answer o (.removeTree p) m).2.cwd = m.cwd := by
  have h (fault : Option SystemError) (m : Machine) :
      ((removingTree fault m p).2.disk = (m.disk.removeTree m.cwd p).2 ∨
        (removingTree fault m p).2.disk = m.disk) ∧ (removingTree fault m p).2.cwd = m.cwd := by
    cases fault with
    | some e => exact ⟨.inr rfl, rfl⟩
    | none => exact ⟨.inl rfl, rfl⟩
  exact h (o.fault m.ticks) (m.step (o.delay m.ticks))

/-- A file was opened for writing, or the disk is as it was. -/
def Opened (m m' : Machine) (op : Except SystemError (Handle × Disk))
    (r : Except SystemError Handle) : Prop :=
  (∃ handle, r = .ok handle ∧ op = .ok (handle, m'.disk) ∧ m'.cwd = m.cwd) ∨
    (∃ e, r = .error e) ∧ Same m m'

theorem opened_openWrite (truncate : Bool) (p : Path) :
    Opened m (answer o (.openWrite truncate p) m).2 (m.disk.openWrite m.cwd truncate p)
      (answer o (.openWrite truncate p) m).1 := by
  have h (fault : Option SystemError) (m : Machine) (op : Except SystemError (Handle × Disk)) :
      Opened m (opening fault m op).2 op (opening fault m op).1 := by
    cases fault with
    | some e => exact .inr ⟨⟨e, rfl⟩, .refl m⟩
    | none =>
      cases op with
      | error e => exact .inr ⟨⟨e, rfl⟩, .refl m⟩
      | ok r => exact .inl ⟨r.1, rfl, rfl, rfl⟩
  exact h (o.fault m.ticks) (m.step (o.delay m.ticks)) (m.disk.openWrite m.cwd truncate p)

variable {o m}

theorem stat_ok {follow : Bool} {p : Path} {status : Stat}
    (h : (answer o (.stat follow p) m).1 = .ok status) :
    m.disk.stat m.cwd follow p = .ok status := reading_ok h

theorem list_ok {p : Path} {names : List Name} (h : (answer o (.list p) m).1 = .ok names) :
    m.disk.list m.cwd p = .ok names := reading_ok h

theorem openRead_ok {p : Path} {file : OpenFile} (h : (answer o (.openRead p) m).1 = .ok file) :
    m.disk.openRead m.cwd p = .ok file := reading_ok h

theorem snapshot_ok {p : Path} {node : Node} (h : (answer o (.snapshot p) m).1 = .ok node) :
    m.disk.snapshot m.cwd p = .ok node := reading_ok h

theorem same_log (level : Level) (text : String) : Same m (answer o (.log level text) m).2 :=
  ⟨rfl, rfl⟩

/-- A call leaves the disk that the collaborator leaves, whether it is waited for or not. -/
theorem disk_collaborate (call : Call) (deadline : Option Nat) :
    (answer o (.collaborate call deadline) m).2.disk =
      (o.collaborate call ((m.step (o.delay m.ticks)).record call)).2.disk := by
  cases deadline with
  | none =>
    change (forever endless _).2.disk = _
    rcases o.collaborate call ((m.step (o.delay m.ticks)).record call) with ⟨_ | r, m'⟩ <;> rfl
  | some limit =>
    change (waited limit _).2.disk = _
    rcases o.collaborate call ((m.step (o.delay m.ticks)).record call) with ⟨_ | r, m'⟩
    · rfl
    · simp only [waited]
      split <;> rfl

/-- Nothing that was there has changed, and no link was added. -/
def Grown (m m' : Machine) : Prop :=
  m.disk.Grows m'.disk ∧ m.disk.Tame m'.disk ∧ m'.cwd = m.cwd

theorem Same.grown (h : Same m m') : Grown m m' := by
  rw [Grown, h.disk]
  exact ⟨.refl _, .refl _, h.cwd⟩

theorem Grown.trans (h : Grown m m') (h' : Grown m' m'') : Grown m m'' :=
  ⟨h.1.trans h'.1, h.2.1.trans h'.2.1, h'.2.2.trans h.2.2⟩

theorem grown_makes {q : Request} {p : Path} (h : q.Makes p) (o : Outside) (m : Machine) :
    Grown m (answer o q m).2 := by
  rcases h with h | ⟨up, -, rfl⟩
  · exact (same_quiet h o m).grown
  · rcases changed_mkdir o m up with ⟨-, hd, hc⟩ | ⟨-, same⟩
    · exact ⟨Disk.mkdir_grows hd, Disk.mkdir_tame hd, hc⟩
    · exact same.grown

theorem same_run {α : Type} {p : Program α} (hp : p.Only Request.Quiet) (o : Outside)
    (m : Machine) : Same m (p.run (answer o) m).2 :=
  hp.run_rel Same.refl Same.trans (fun _ m hq => same_quiet hq o m) m

/-- What is waited for is done, and its result is lost if the deadline strikes, or the deadline has
struck before. Looking at the clock changes nothing. -/
theorem ends_await {α : Type} {p : Program α} {deadline : Option Nat}
    {Q : Except Stop α → List (Request × Machine) → Machine → Prop}
    (late : ∀ es m₁, Same m m₁ → Q (.error .late) es m₁)
    (h : ∀ m₁, Same m m₁ → p.Ends (answer o) m₁ fun a es m₂ => ∀ es' m₃, es ⊆ es' → Same m₂ m₃ →
      Q (.ok a) es' m₃ ∧ Q (.error .late) es' m₃) :
    (Work.await p deadline).Ends (answer o) m Q := by
  have clock (m : Machine) : Same m ((Work.isLate deadline).run (answer o) m).2 :=
    same_run (Work.only_isLate trivial deadline) o m
  refine Program.Ends.bind (p := Work.isLate deadline) (M := fun _ _ m₁ => Same m m₁)
    (clock m) fun before es m₁ same => ?_
  cases before with
  | true => exact late _ _ same
  | false =>
    refine Program.Ends.bind (h m₁ same) fun a es₁ m₂ hm => ?_
    refine Program.Ends.bind (p := Work.isLate deadline) (M := fun _ _ m₃ => Same m₂ m₃)
      (clock m₂) fun after es₂ m₃ same₂ => ?_
    have sub : es₁ ⊆ es ++ (es₁ ++ (es₂ ++ [])) := fun e he => by simp [he]
    cases after with
    | true => exact (hm _ m₃ sub same₂).2
    | false => exact (hm _ m₃ sub same₂).1

end LayerPack.Machine
