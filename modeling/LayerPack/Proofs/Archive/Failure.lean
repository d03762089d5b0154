import LayerPack.Archive.Write
import LayerPack.Proofs.Archive.Writing
import LayerPack.Proofs.Program.Requests

/-! Why no archive is made. Unless the deadline struck, the work gives up because the system refused
something, which its message then quotes, because there is no file, or because a file has no name
inside an archive. -/
namespace LayerPack

/-! ### Failures that go back to the system

A file operation fails in a run only because a request of the run was answered with this failure. -/

section

open Program

/-- Why something has failed. -/
def errorOf {α : Type} : Except SystemError α → Option SystemError
  | .error e => some e
  | .ok _ => none

/-- The failure of an operation on files, as it was answered. -/
def Request.failure? : (q : Request) → q.Reply → Option SystemError
  | .stat .., r => errorOf r
  | .list _, r => errorOf r
  | .snapshot _, r => errorOf r
  | .openRead _, r => errorOf r
  | .read .., r => errorOf r
  | .mkdir _, r => errorOf r
  | .unlink _, r => errorOf r
  | .removeTree _, r => errorOf r
  | .rename .., r => errorOf r
  | .openWrite .., r => errorOf r
  | .append .., r => errorOf r
  | .sync _, r => errorOf r
  | .lock _, r => errorOf r
  | .workingDirectory, r => errorOf r
  | _, _ => none

variable {σ : Type} {answer : Answers σ} {s : σ} {es es' : List (Request × σ)} {e : SystemError}

/-- Some operation of a run failed in this way. -/
def Failed (answer : Answers σ) (es : List (Request × σ)) (e : SystemError) : Prop :=
  ∃ asked ∈ es, asked.1.failure? (answer asked.1 asked.2).1 = some e

theorem Failed.mono (h : Failed answer es e) (sub : es ⊆ es') : Failed answer es' e :=
  let ⟨asked, hm, he⟩ := h
  ⟨asked, sub hm, he⟩

theorem failed_single {q : Request} (h : q.failure? (answer q s).1 = some e) :
    Failed answer [(q, s)] e := ⟨(q, s), List.mem_singleton_self _, h⟩

/-- After an operation that fails only as the system refuses something, the work goes on from such a
refusal or from a success. -/
theorem Program.Ends.bind_refused {α β : Type} {p : Program (Except SystemError α)}
    {f : Except SystemError α → Program β} {Q : β → List (Request × σ) → σ → Prop}
    (hp : p.Ends answer s fun r es _ => ∀ e, r = .error e → Failed answer es e)
    (refused : ∀ e es s', Failed answer es e →
      (f (.error e)).Ends answer s' fun b es' s'' => Q b (es ++ es') s'')
    (done : ∀ a es s', (f (.ok a)).Ends answer s' fun b es' s'' => Q b (es ++ es') s'') :
    (p.bind f).Ends answer s Q := by
  refine hp.bind ?_
  rintro (e | a) es s' failed
  · exact refused e es s' (failed e rfl)
  · exact done a es s'

/-- What is waited for is lost to the deadline, or its outcome is handed on. -/
theorem Work.ends_waited {α : Type} {p : Program α} {deadline : Option Nat}
    {M : α → List (Request × σ) → Prop} (hp : ∀ s, p.Ends answer s fun a es _ => M a es)
    (mono : ∀ a es es', es ⊆ es' → M a es → M a es') : (await p deadline).Ends answer s fun r es _ =>
      r = .error .late ∨ ∃ a, r = .ok a ∧ M a es := by
  refine Ends.bind (p := isLate deadline) (M := fun _ _ _ => True) trivial ?_
  rintro (_ | _) es _ -
  · refine (hp _).bind fun a es' _ h => ?_
    refine Ends.bind (p := isLate deadline) (M := fun _ _ _ => True) trivial ?_
    rintro (_ | _) es'' _ -
    · exact .inr ⟨a, rfl, mono a es' _ (by simp) h⟩
    · exact .inl rfl
  · exact .inl rfl

namespace Files

theorem makeDir_fails (p : Path) : (makeDir p).Ends answer s fun r es _ =>
    ∀ e, r = .error e → Failed answer es e := by
  refine Ends.bind_refused (p := request (.mkdir p)) (fun e h => failed_single (congrArg errorOf h))
    (fun e es s' failed => ?_) fun _ _ _ _ h => by cases h
  refine Ends.bind (p := isDir p) (M := fun _ _ _ => True) trivial fun there _ _ _ => ?_
  cases there with
  | true => exact fun _ h => by cases h
  | false =>
    rintro _ ⟨⟩
    exact failed.mono (by simp)

theorem makeDirsWithin_fails (fuel : Nat) (p : Path) : (makeDirsWithin fuel p).Ends answer s
    fun r es _ => ∀ e, r = .error e → Failed answer es e := by
  induction fuel generalizing p s with
  | zero => exact makeDir_fails p
  | succ fuel ih =>
    rw [makeDirsWithin]
    split
    · exact fun _ h => by cases h
    refine Ends.bind_refused (p := request (.mkdir p)) (fun e h => failed_single (congrArg errorOf h))
      (fun e es s' failed => ?_) fun _ _ _ _ h => by cases h
    dsimp only
    split
    · split
      · rintro _ ⟨⟩
        exact failed.mono (by simp)
      · refine Ends.bind_refused (ih _) (fun e es s' failed => ?_) fun _ es s' => ?_
        · rintro _ ⟨⟩
          exact failed.mono (by simp)
        · exact (makeDir_fails p).mono fun r es'' _ hr e he => (hr e he).mono (by simp)
    · refine Ends.bind (p := isDir p) (M := fun _ _ _ => True) trivial fun there _ _ _ => ?_
      cases there with
      | true => exact fun _ h => by cases h
      | false =>
        rintro _ ⟨⟩
        exact failed.mono (by simp)

theorem readFrom_fails (buffer : Nat) (held : ByteArray) (file : OpenFile) :
    (readFrom buffer held file).Ends answer s fun r es _ =>
      ∀ e, r = .error e → Failed answer es e := by
  fun_induction readFrom buffer held file generalizing s with
  | case1 held =>
    refine Ends.bind_refused (p := request (.read .directory buffer))
      (fun e h => failed_single (congrArg errorOf h)) (fun e es s' failed => ?_)
      fun _ _ _ _ h => by cases h
    rintro _ ⟨⟩
    exact failed.mono (by simp)
  | case2 held unread ih =>
    refine Ends.bind_refused (p := request (.read (.data unread) buffer))
      (fun e h => failed_single (congrArg errorOf h)) (fun e es s' failed => ?_)
      fun granted es s' => ?_
    · rintro _ ⟨⟩
      exact failed.mono (by simp)
    · dsimp only
      split
      · exact fun _ h => by cases h
      · exact (ih granted ‹_›).mono fun r es' _ hr e he => (hr e he).mono (by simp)

theorem makeDirs_fails (p : Path) : (makeDirs p).Ends answer s fun r es _ =>
    ∀ e, r = .error e → Failed answer es e := makeDirsWithin_fails _ p

theorem readAll_fails (buffer : Nat) (file : OpenFile) : (readAll buffer file).Ends answer s
    fun r es _ => ∀ e, r = .error e → Failed answer es e := readFrom_fails buffer .empty file

end Files

end

/-! ### Why no archive is made -/

open Program Machine

section Writing

variable {σ : Type} {answer : Answers σ} {s : σ} {es es' : List (Request × σ)} {text : String}
  {root hidden output p : Path} {files : List Path} {deadline : Option Nat}

/-- The text ends in what the system says of an operation that failed. -/
def Quotes (answer : Answers σ) (es : List (Request × σ)) (text : String) : Prop :=
  ∃ e before, Failed answer es e ∧ text = before ++ e.message

theorem Quotes.mono (h : Quotes answer es text) (sub : es ⊆ es') : Quotes answer es' text :=
  let ⟨e, before, failed, ht⟩ := h
  ⟨e, before, failed.mono sub, ht⟩

theorem Failed.quotes {e : SystemError} (h : Failed answer es e) (sub : es ⊆ es') (what : String) :
    Quotes answer es' (Archive.failing what e) := by
  refine ⟨e, what ++ ": ", h.mono sub, ?_⟩
  rw [Archive.failing]

namespace Archive

/-- The system refused something, or a file has no name inside an archive. -/
def Blames (answer : Answers σ) (root : Path) (files : List Path) (es : List (Request × σ))
    (text : String) : Prop :=
  Quotes answer es text ∨ ∃ p ∈ files, entryName root p = .error text

theorem Blames.mono (h : Blames answer root files es text) (sub : es ⊆ es') :
    Blames answer root files es' text := h.imp_left (·.mono sub)

theorem readForHash_fails (p : Path) : (readForHash p).Ends answer s fun r es _ =>
    ∀ cause, r = .error cause → ∃ what e, Failed answer es e ∧ cause = .files what p e := by
  refine Ends.bind_refused (p := Files.openRead p) (fun e h => failed_single (congrArg errorOf h))
    (fun e es s' failed => ?_) fun file es s' => ?_
  · rintro _ ⟨⟩
    exact ⟨_, e, failed.mono (by simp), rfl⟩
  refine Ends.bind_refused (Files.readAll_fails hashBuffer file) (fun e es s' failed => ?_)
    fun _ _ _ _ h => by cases h
  rintro _ ⟨⟩
  exact ⟨_, e, failed.mono (by simp), rfl⟩

theorem fileDigest_fails (p : Path) : (fileDigest p).Ends answer s fun r es _ =>
    ∀ cause, r = .error cause → ∃ what e, Failed answer es e ∧ cause = .files what p e := by
  refine (readForHash_fails p).bind ?_
  rintro (cause | content) es s' h
  · rintro _ ⟨⟩
    obtain ⟨what, e, failed, he⟩ := h cause rfl
    exact ⟨what, e, failed.mono (by simp), he⟩
  · exact fun _ h => by cases h

theorem measure_fails (p : Path) : (measure p).Ends answer s fun r es _ =>
    ∀ text, r = .error text → Quotes answer es text := by
  refine Ends.bind_refused (p := Files.stat p) (fun e h => failed_single (congrArg errorOf h))
    (fun e es s' failed => ?_) fun status es s' => ?_
  · rintro _ ⟨⟩
    exact failed.quotes (by simp) _
  refine (fileDigest_fails p).bind ?_
  rintro (cause | digest) es' s'' h'
  · rintro _ ⟨⟩
    obtain ⟨what, e, failed, rfl⟩ := h' cause rfl
    exact ⟨e, _, failed.mono (by simp), rfl⟩
  · exact fun _ h => by cases h

theorem readEntry_fails (root p : Path) : (readEntry root p).Ends answer s fun r es _ =>
    ∀ text, r = .error text → Quotes answer es text ∨ entryName root p = .error text := by
  unfold readEntry
  split
  next reason hname =>
    rintro _ ⟨⟩
    exact .inr hname
  refine Ends.bind_refused (p := Files.stat p) (fun e h => failed_single (congrArg errorOf h))
    (fun e es s' failed => ?_) fun status es s' => ?_
  · rintro _ ⟨⟩
    exact .inl (failed.quotes (by simp) _)
  refine Ends.bind_refused (p := Files.openRead p) (fun e h => failed_single (congrArg errorOf h))
    (fun e es s' failed => ?_) fun file es s' => ?_
  · rintro _ ⟨⟩
    exact .inl (failed.quotes (by simp) _)
  refine Ends.bind_refused (Files.readAll_fails copyBuffer file) (fun e es s' failed => ?_)
    fun _ _ _ _ h => by cases h
  rintro _ ⟨⟩
  exact .inl (failed.quotes (fun _ hx => by simp [hx]) _)

theorem readEntries_fails (root : Path) (files : List Path) :
    (readEntries root files).Ends answer s fun r es _ =>
      ∀ text, r = .error text → Blames answer root files es text := by
  induction files generalizing s with
  | nil => exact fun _ h => by cases h
  | cons p rest ih =>
    refine (readEntry_fails root p).bind ?_
    rintro (reason | entry) es s' h
    · rintro _ ⟨⟩
      exact (h reason rfl).imp (·.mono (by simp)) fun hname => ⟨p, List.mem_cons_self, hname⟩
    refine ih.bind ?_
    rintro (reason | entries) es' s'' h
    · rintro _ ⟨⟩
      exact (h reason rfl).imp (·.mono (by simp)) fun ⟨q, hq, hname⟩ =>
        ⟨q, List.mem_cons_of_mem _ hq, hname⟩
    · exact fun _ h => by cases h

theorem writeZip_fails (root : Path) (files : List Path) (hidden : Path) :
    (writeZip root files hidden).Ends answer s fun r es _ =>
      ∀ text, r = .error text → Blames answer root files es text := by
  refine Ends.bind_refused (p := request (.openWrite true hidden))
    (fun e h => failed_single (congrArg errorOf h)) (fun e es s' failed => ?_) fun handle es s' => ?_
  · rintro _ ⟨⟩
    exact .inl (failed.quotes (by simp) _)
  refine (readEntries_fails root files).bind ?_
  rintro (reason | entries) es₂ s₂ h
  · rintro _ ⟨⟩
    exact (h reason rfl).mono (by simp)
  refine Ends.bind_refused (p := request (.append handle (Zip.encode entries)))
    (fun e h => failed_single (congrArg errorOf h)) (fun e es s' failed => ?_) fun _ es s' => ?_
  · rintro _ ⟨⟩
    exact .inl (failed.quotes (fun _ hx => by simp [hx]) _)
  refine Ends.bind_refused (p := request (.sync handle))
    (fun e h => failed_single (congrArg errorOf h)) (fun e es s' failed => ?_)
    fun _ _ _ _ h => by cases h
  rintro _ ⟨⟩
  exact .inl (failed.quotes (fun _ hx => by simp [hx]) _)

theorem writePartial_fails (root : Path) (files : List Path) (hidden : Path) :
    (writePartial root files hidden).Ends answer s fun r es _ =>
      ∀ text, r = .error text → Blames answer root files es text := by
  have written : (writeAndMeasure root files hidden).Ends answer s fun r es _ =>
      ∀ text, r = .error text → Blames answer root files es text := by
    refine (writeZip_fails root files hidden).bind ?_
    rintro (reason | ⟨⟩) es s' h
    · rintro _ ⟨⟩
      exact (h reason rfl).mono (by simp)
    · exact (measure_fails hidden).mono fun r es' _ h text ht => .inl ((h text ht).mono (by simp))
  refine written.bind ?_
  rintro (reason | measured) es s' h
  · refine Ends.bind (p := removePartial hidden) (M := fun _ _ _ => True) trivial
      fun _ _ _ _ => ?_
    rintro _ ⟨⟩
    exact (h reason rfl).mono (by simp)
  · exact fun _ h => by cases h

theorem writeAndMove_fails : (writeAndMove root files hidden output deadline).Ends answer s
    fun r es _ => ∀ cause, r = .error (.failed cause) → ∃ text, cause = .archive output text ∧
      Blames answer root files es text := by
  have waited : (Work.await (writePartial root files hidden) deadline).Ends answer s fun r es _ =>
      r = .error .late ∨ ∃ written, r = .ok written ∧ ∀ text, written = .error text →
        Blames answer root files es text :=
    Work.ends_waited (fun s => writePartial_fails root files hidden)
      fun _ _ _ sub h text ht => (h text ht).mono sub
  refine Work.ends_bind.mpr (waited.mono ?_)
  rintro _ es s' (rfl | ⟨written, rfl, h⟩)
  · exact fun _ h => by cases h
  refine Work.ends_bind.mpr (Work.ends_ofExcept.mpr ?_)
  cases written with
  | error reason =>
    rintro _ ⟨⟩
    exact ⟨reason, rfl, (h reason rfl).mono (by simp)⟩
  | ok measured =>
    refine Work.ends_bind.mpr (Work.ends_now.mpr (ends_request.mpr ?_))
    refine Work.ends_bind.mpr (Work.ends_ofExcept.mpr ?_)
    cases hr : (answer (.rename hidden output) s').1 with
    | ok => exact fun _ h => by cases h
    | error e =>
      rintro _ ⟨⟩
      have failed : Failed answer [(.rename hidden output, s')] e :=
        failed_single (congrArg errorOf hr)
      exact ⟨_, rfl, .inl (failed.quotes (by simp) _)⟩

theorem deliver_fails : (deliver root output files deadline).Ends answer s fun r es _ =>
    ∀ cause, r = .error (.failed cause) → ∃ text, cause = .archive output text ∧
      Blames answer root files es text := by
  refine Work.ends_bind.mpr (Work.ends_now.mpr (ends_request.mpr ?_))
  refine Work.ends_onStop.mpr (writeAndMove_fails.mono ?_)
  rintro (stop | measured) es s' h
  -- giving up removes the hidden file, which does not change the reason
  · refine Ends.mono (Q := fun _ _ _ => True) trivial fun _ es' _ _ => ?_
    rintro cause ⟨⟩
    obtain ⟨text, rfl, hb⟩ := h cause rfl
    exact ⟨text, rfl, hb.mono (by simp)⟩
  · exact fun _ h => by cases h

theorem makeParent_fails (output : Path) (deadline : Option Nat) :
    (makeParent output deadline).Ends answer s fun r es _ => ∀ cause, r = .error (.failed cause) →
      ∃ text, cause = .archive output text ∧ Quotes answer es text := by
  unfold makeParent
  cases output.parent? with
  | none => exact fun _ h => by cases h
  | some up =>
    have waited : (Work.await (Files.makeDirs up) deadline).Ends answer s fun r es _ =>
        r = .error .late ∨ ∃ made, r = .ok made ∧ ∀ e, made = .error e → Failed answer es e :=
      Work.ends_waited (fun s => Files.makeDirs_fails up)
        fun _ _ _ sub h e he => (h e he).mono sub
    refine Work.ends_bind.mpr (waited.mono ?_)
    rintro _ es s' (rfl | ⟨made, rfl, h⟩)
    · exact fun _ h => by cases h
    refine Work.ends_ofExcept.mpr ?_
    cases made with
    | ok => exact fun _ h => by cases h
    | error e =>
      rintro _ ⟨⟩
      exact ⟨_, rfl, (h e rfl).quotes (by simp) _⟩

end Archive

end Writing

variable {o : Outside} {m : Machine} {root output : Path} {place : Place} {es : Entries}
  {deadline : Option Nat}

/-- The path of a directory of the tree is too long for the system to read it, and the text says so. -/
def TooDeep (root : Path) (tree : Node) (text : String) : Prop :=
  ∃ place es before, tree.get? place = some (.dir es) ∧
    Disk.maxPath < (root.descend place).bytes.length ∧
    text = before ++ SystemError.nameTooLong.message

theorem SystemError.message_text (t : String) : (SystemError.text t).message = t := by
  unfold SystemError.message
  rfl

theorem Error.message_files (what : String) (p : Path) (e : SystemError) :
    (Error.files what p e).message = what ++ " " ++ p.display ++ ": " ++ e.message := by
  unfold Error.message
  rfl

/-- The failure of a walk ends in what the system says. -/
theorem Files.message_walkFailure (e : WalkError) :
    ∃ before, (walkFailure e).message = before ++ e.error.message := by
  refine ⟨"walking directory" ++ " " ++ e.path.display ++ ": " ++
    ("IO error for operation on " ++ e.path.display ++ ": "), ?_⟩
  rw [walkFailure, Error.message_files, SystemError.message_text]
  generalize e.error.message = text
  simp only [String.append_assoc]

theorem Files.quotes_walkFailure {answer : Answers Machine} {es es' : List (Request × Machine)}
    {e : SystemError} (h : Failed answer es e) (sub : es ⊆ es') (p : Path) :
    Quotes answer es' (walkFailure ⟨p, e⟩).message :=
  let ⟨before, hb⟩ := message_walkFailure ⟨p, e⟩
  ⟨e, before, h.mono sub, hb⟩

section Root

variable (wf : m.disk.root.WellFormed)
  (hroot : m.disk.resolve m.cwd true root = .ok (place, .dir es))
include wf hroot

theorem Files.collect_fails : (Files.collect root).Ends (answer o) m fun r trace _ =>
    ∀ cause, r = .error cause →
      Quotes (answer o) trace cause.message ∨ TooDeep root (.dir es) cause.message := by
  have wft : (Node.dir es).WellFormed :=
    wf.get? (p := place) (Disk.lookup_sound (Disk.resolve_ok.mp hroot))
  have below {m' : Machine} (same : Same m m') : (collect.below root).Ends (answer o) m'
      fun r trace _ => ∀ cause, r = .error cause →
        Quotes (answer o) trace cause.message ∨ TooDeep root (.dir es) cause.message := by
    refine Ends.bind (p := request (.snapshot root)) (M := fun r trace _ =>
      (∀ e, r = .error e → Failed (answer o) trace e) ∧
        ∀ node, r = .ok node → m'.disk.snapshot m'.cwd root = .ok node)
      ⟨fun e h => failed_single (congrArg errorOf h), fun _ h => snapshot_ok h⟩ ?_
    rintro (e | node) trace m'' ⟨failed, found⟩
    · rintro _ ⟨⟩
      exact .inl (quotes_walkFailure (failed e rfl) (by simp) root)
    · intro cause h
      obtain ⟨place', hplace⟩ := Disk.snapshot_ok (found node rfl)
      rw [same.disk, same.cwd] at hplace
      cases hroot.symm.trans hplace
      change ((Node.dir es).filesBelow root).mapError walkFailure = .error cause at h
      cases hf : (Node.dir es).filesBelow root with
      | ok =>
        rw [hf] at h
        cases h
      | error e =>
        rw [hf] at h
        cases h
        obtain ⟨place', es', hg, long, rfl⟩ := Node.filesBelow_error wft hf
        obtain ⟨before, hb⟩ := message_walkFailure ⟨root.descend place', .nameTooLong⟩
        exact .inr ⟨place', es', before, hg, long, hb⟩
  refine Ends.bind (p := lstat root) (M := fun r trace m' => Same m m' ∧
    ∀ e, r = .error e → Failed (answer o) trace e)
    ⟨same_quiet (q := .stat false root) trivial o m, fun e h => failed_single (congrArg errorOf h)⟩ ?_
  rintro (e | status) trace m' ⟨same, failed⟩
  · rintro _ ⟨⟩
    exact .inl (quotes_walkFailure (failed e rfl) (by simp) root)
  dsimp only
  split
  · exact fun _ h => by cases h
  · exact (below same).mono fun r es' _ h cause hr => (h cause hr).imp_left (·.mono (by simp))
  refine Ends.bind (p := stat root) (M := fun r trace m'' => Same m m'' ∧
    ∀ e, r = .error e → Failed (answer o) trace e)
    ⟨same.trans (same_quiet (q := .stat true root) trivial o m'),
      fun e h => failed_single (congrArg errorOf h)⟩ ?_
  rintro (e | status) trace' m'' ⟨same, failed⟩
  · rintro _ ⟨⟩
    exact .inl (quotes_walkFailure (failed e rfl) (by simp) root)
  dsimp only
  split
  · exact (below same).mono fun r es' _ h cause hr =>
      (h cause hr).imp_left (·.mono fun _ hx => by simp [hx])
  · exact fun _ h => by cases h

/-- Before anything is written, the work gives up because the system refused something, or because no
files have been found. -/
theorem Archive.prepare_fails : (Archive.prepare root output deadline).Ends (answer o) m
    fun r trace _ => ∀ cause, r = .error (.failed cause) → ∃ text, cause = .archive output text ∧
      (Quotes (answer o) trace text ∨ TooDeep root (.dir es) text ∨
        Files.Collected m.disk m.cwd root []) := by
  have same : Same m (answer o (.log .info ("Archiving " ++ root.display ++ " into " ++
      output.display)) m).2 := same_quiet (Request.quiet_info (by simp)) o m
  refine Work.ends_bind.mpr (Work.ends_now.mpr (ends_request.mpr ?_))
  generalize (answer o (.log .info ("Archiving " ++ root.display ++ " into " ++
      output.display)) m).2 = m₁ at same
  refine Work.ends_bind.mpr (ends_await (fun _ _ _ _ h => by cases h) fun m₂ same₂ => ?_)
  have same₂ := same.trans same₂
  have wf₂ : m₂.disk.root.WellFormed := same₂.disk ▸ wf
  have hroot₂ : m₂.disk.resolve m₂.cwd true root = .ok (place, .dir es) := by
    rw [same₂.disk, same₂.cwd, hroot]
  refine ((Files.collect_ends root).and (Files.collect_fails wf₂ hroot₂)).mono ?_
  rintro collected es₃ m₃ ⟨⟨-, hc⟩, hf⟩ es₄ m₄ sub -
  refine ⟨?_, fun _ h => by cases h⟩
  refine Work.ends_bind.mpr (Work.ends_ofExcept.mpr ?_)
  cases collected with
  | error e =>
    rintro _ ⟨⟩
    refine ⟨_, rfl, (hf e rfl).imp (fun h => h.mono fun x hx => ?_) .inl⟩
    simp [sub hx]
  | ok files =>
    refine Work.ends_bind.mpr (Work.ends_failIf.mpr ?_)
    cases hempty : files.isEmpty with
    | true =>
      rintro _ ⟨⟩
      obtain rfl := List.isEmpty_iff.mp hempty
      have := hc [] rfl
      rw [same₂.disk, same₂.cwd] at this
      exact ⟨_, rfl, .inr (.inr this)⟩
    | false =>
      refine Work.ends_bind.mpr ((makeParent_fails output deadline).mono ?_)
      rintro (stop | ⟨⟩) es₅ m₅ h
      · rintro cause ⟨⟩
        obtain ⟨text, rfl, quotes⟩ := h cause rfl
        exact ⟨text, rfl, .inl (quotes.mono fun x hx => by simp [hx])⟩
      · exact fun _ h => by cases h

/-- An archive is not made because the system refused something, because no files have been found, or
because one of them has no name inside an archive. -/
theorem Archive.write_fails : (Archive.write root output deadline).Ends (answer o) m
    fun r trace _ => ∀ cause, r = .error (.failed cause) → ∃ text, cause = .archive output text ∧
      (Quotes (answer o) trace text ∨ TooDeep root (.dir es) text ∨
        Files.Collected m.disk m.cwd root [] ∨
        ∃ files, Files.Collected m.disk m.cwd root files ∧
          ∃ p ∈ files, Archive.entryName root p = .error text) := by
  refine Work.ends_bind.mpr ((prepare_ends.and (Archive.prepare_fails wf hroot)).mono ?_)
  rintro (stop | files) es₁ m₁ ⟨⟨-, prepared⟩, failed⟩
  · rintro cause ⟨⟩
    obtain ⟨text, rfl, h⟩ := failed cause rfl
    exact ⟨text, rfl, h.imp_right (·.imp_right .inl)⟩
  refine Work.ends_bind.mpr (deliver_fails.mono ?_)
  rintro (stop | measured) es₂ m₂ h
  · rintro cause ⟨⟩
    obtain ⟨text, rfl, hb⟩ := h cause rfl
    refine ⟨text, rfl, hb.imp (·.mono fun x hx => by simp [hx]) fun hp => ?_⟩
    exact .inr (.inr ⟨files, (prepared files rfl).2, hp⟩)
  · exact fun _ h => by cases h

end Root

end LayerPack
