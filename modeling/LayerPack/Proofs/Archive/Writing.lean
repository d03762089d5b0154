import LayerPack.Proofs.Archive.Hidden
import LayerPack.Proofs.Archive.Reading

/-! Writing an archive on a machine. Until the hidden file is moved, nothing on the disk changes
except at its place, where nothing stood before; when it is moved, it holds the entries of all the
files that were collected. -/
namespace LayerPack

open Program Machine

variable {o : Outside} {m m' m'' : Machine} {root hidden : Path} {files : List Path}
  {parent : Place} {name : Name}

namespace Archive

/-- A hidden file has been worked on: nothing else has changed, and nothing stood in its place. -/
structure Started (m : Machine) (hidden : Path) (parent : Place) (name : Name) (m' : Machine) :
    Prop where
  way : m.disk.lookupParent m.cwd hidden = .ok (parent, .name name false)
  free : m.disk.get? (parent ++ [name]) = none
  changed : m.disk.ChangedAt (parent ++ [name]) m'.disk
  tame : m.disk.Tame m'.disk
  cwd : m'.cwd = m.cwd

theorem Started.next (h : Started m hidden parent name m')
    (hc : m'.disk.ChangedAt (parent ++ [name]) m''.disk) (ht : m'.disk.Tame m''.disk)
    (hcwd : m''.cwd = m'.cwd) : Started m hidden parent name m'' :=
  ⟨h.way, h.free, h.changed.trans hc, h.tame.trans ht, hcwd.trans h.cwd⟩

theorem Started.same (h : Started m hidden parent name m') (same : Same m' m'') :
    Started m hidden parent name m'' := by
  refine h.next ?_ ?_ same.cwd <;> rw [same.disk]
  · exact fun _ _ => rfl
  · exact .refl _

theorem Started.after (h : Started m' hidden parent name m'') (same : Same m m') :
    Started m hidden parent name m'' := by
  refine ⟨?_, ?_, ?_, ?_, h.cwd.trans same.cwd⟩ <;> rw [← same.disk]
  · exact same.cwd ▸ h.way
  · exact h.free
  · exact h.changed
  · exact h.tame

theorem Started.grows (h : Started m hidden parent name m') : m.disk.Grows m'.disk :=
  h.changed.grows h.free

/-- The path of the hidden file still leads to its place. -/
theorem Started.still (h : Started m hidden parent name m') :
    m'.disk.lookupParent m'.cwd hidden = .ok (parent, .name name false) := by
  rw [h.cwd]
  exact Disk.lookupParent_keeps h.grows.keepsWays h.way

/-- The hidden file holds the entries of the files, as they were found. -/
structure Holds (root : Path) (files : List Path) (m : Machine) (place : Place)
    (entries : List Zip.Entry) (m' : Machine) : Prop where
  file : ∃ id, m'.disk.get? place = some (.file id Disk.newMode (Zip.encode entries))
  entries : ∃ d, m.disk.Grows d ∧ List.Forall₂ (EntryOf root d m.cwd) files entries

theorem Holds.same {place : Place} {entries : List Zip.Entry}
    (h : Holds root files m place entries m') (same : Same m' m'') :
    Holds root files m place entries m'' :=
  ⟨same.disk ▸ h.file, h.entries⟩

/-- A name that is nowhere on the disk is opened as a new file. -/
theorem openHidden_ends {parts : List Bytes}
    (hs : Disk.splitLast hidden.bytes = (parts, .name name false))
    (missing : ∀ dest, m.disk.get? (dest ++ [name]) = none) :
    (request (.openWrite true hidden)).Ends (answer o) m fun r _ m' =>
      ((∃ e, r = .error e) ∧ Same m m') ∨ ∃ parent id, r = .ok ⟨parent ++ [name], id⟩ ∧
        Started m hidden parent name m' ∧
        m'.disk.get? (parent ++ [name]) = some (.file id Disk.newMode .empty) := by
  refine ends_request.mpr ?_
  rcases opened_openWrite o m true hidden with ⟨handle, hr, hop, hcwd⟩ | failed
  · right
    have tame := Disk.openWrite_tame hop
    rcases Disk.openWrite_ok hop with ⟨_, _, _, hl, -⟩ | ⟨parent, name', hl, rfl, hd⟩
    · obtain ⟨_, -, h⟩ := Disk.lookup_missing hs missing hl
      cases h
    · obtain ⟨_, hp, h⟩ := Disk.lookup_missing hs missing hl
      cases h
      obtain ⟨es, he⟩ := Disk.dir_of_lookupParent hp
      refine ⟨parent, m.disk.nextId, hr, ⟨hp, missing parent, ?_, tame, hcwd⟩, ?_⟩ <;> rw [hd]
      · exact Disk.changedAt_put m.disk _ _
      · exact Disk.get?_put_self he
  · exact .inl failed

/-- Bytes are added at the end of the file that was opened. -/
theorem append_ends {id mode : Nat} {content bytes : ByteArray}
    (hg : m.disk.get? (parent ++ [name]) = some (.file id mode content)) :
    (request (.append ⟨parent ++ [name], id⟩ bytes)).Ends (answer o) m fun r _ m' =>
      m'.cwd = m.cwd ∧ m.disk.ChangedAt (parent ++ [name]) m'.disk ∧ m.disk.Tame m'.disk ∧
        (r = .ok () →
          m'.disk.get? (parent ++ [name]) = some (.file id mode (content ++ bytes))) := by
  refine ends_request.mpr ?_
  have happ : m.disk.append ⟨parent ++ [name], id⟩ bytes =
      m.disk.put (parent ++ [name]) (.file id mode (content ++ bytes)) := by
    simp [Disk.append, hg]
  rcases changed_append o m ⟨parent ++ [name], id⟩ bytes with ⟨-, hop, hcwd⟩ | ⟨⟨e, he⟩, same⟩
  · have tame := Disk.append_tame (d := m.disk) ⟨parent ++ [name], id⟩ bytes
    have hd := Except.ok.inj hop
    obtain ⟨es, hes⟩ := Node.dir_of_get?_append hg
    refine ⟨hcwd, ?_, hd ▸ tame, fun _ => ?_⟩ <;> rw [← hd, happ]
    · exact Disk.changedAt_put _ _ _
    · exact Disk.get?_put_self hes
  · refine ⟨same.cwd, ?_, ?_, fun h => ?_⟩
    · rw [same.disk]
      exact fun _ _ => rfl
    · rw [same.disk]
      exact .refl _
    · cases he.symm.trans h

theorem writeZip_ends {parts : List Bytes}
    (hs : Disk.splitLast hidden.bytes = (parts, .name name false))
    (missing : ∀ dest, m.disk.get? (dest ++ [name]) = none) :
    (writeZip root files hidden).Ends (answer o) m fun r _ m' =>
      ((∃ reason, r = .error reason) ∧ Same m m') ∨ ∃ parent, Started m hidden parent name m' ∧
        (r = .ok () → ∃ entries, Holds root files m (parent ++ [name]) entries m') := by
  refine (openHidden_ends hs missing).bind ?_
  rintro _ _ m₁ (⟨⟨e, rfl⟩, same⟩ | ⟨parent, id, rfl, started, empty⟩)
  · exact .inl ⟨⟨_, rfl⟩, same⟩
  refine Ends.mono (Q := fun r _ m' => Started m hidden parent name m' ∧
    (r = .ok () → ∃ entries, Holds root files m (parent ++ [name]) entries m')) ?_
    fun _ _ _ h => .inr ⟨parent, h⟩
  refine (readEntries_ends root files).bind ?_
  rintro (reason | entries) _ m₂ ⟨same, read⟩
  · exact ⟨started.same same, fun h => by cases h⟩
  have found : m₂.disk.get? (parent ++ [name]) = some (.file id Disk.newMode .empty) := by
    rw [same.disk, empty]
  refine (append_ends found).bind ?_
  rintro (e | ⟨⟩) _ m₃ ⟨hcwd, changed, tame, there⟩
  · exact ⟨(started.same same).next changed tame hcwd, fun h => by cases h⟩
  have started₃ := (started.same same).next changed tame hcwd
  have holds : Holds root files m (parent ++ [name]) entries m₃ := by
    refine ⟨⟨id, ?_⟩, m₁.disk, started.grows, started.cwd ▸ read entries rfl⟩
    rw [there rfl, ByteArray.empty_append]
  have synced := same_quiet (q := .sync ⟨parent ++ [name], id⟩) trivial o m₃
  refine Ends.bind (M := fun _ _ m₄ => Same m₃ m₄) synced ?_
  rintro (e | ⟨⟩) _ m₄ same₄
  · exact ⟨started₃.same same₄, fun h => by cases h⟩
  · exact ⟨started₃.same same₄, fun _ => ⟨entries, holds.same same₄⟩⟩

/-- What was measured are the size and the digest of an archive with these entries. -/
def Measures (entries : List Zip.Entry) (measured : Nat × String) : Prop :=
  (Zip.encode entries).size = measured.1 ∧ Sha256.hexDigest (Zip.encode entries) = measured.2

theorem measure_holds {entries : List Zip.Entry} (h : Started m hidden parent name m')
    (holds : Holds root files m (parent ++ [name]) entries m') :
    (measure hidden).Ends (answer o) m' fun r _ m'' =>
      Same m' m'' ∧ ∀ measured, r = .ok measured → Measures entries measured := by
  refine (measure_ends hidden).mono fun r _ m'' ⟨same, hr⟩ => ⟨same, ?_⟩
  rintro ⟨bytes, sha256⟩ h'
  obtain ⟨mode, content, ⟨place, id, hfile⟩, hsize, hdigest⟩ := hr bytes sha256 h'
  obtain ⟨id', hid⟩ := holds.file
  have hcontent := (Disk.resolve_file h.still hid true).symm.trans hfile
  simp only [Except.ok.injEq, Prod.mk.injEq, Node.file.injEq] at hcontent
  obtain ⟨-, -, -, rfl⟩ := hcontent
  exact ⟨hsize, hdigest⟩

theorem writeAndMeasure_ends {parts : List Bytes}
    (hs : Disk.splitLast hidden.bytes = (parts, .name name false))
    (missing : ∀ dest, m.disk.get? (dest ++ [name]) = none) :
    (writeAndMeasure root files hidden).Ends (answer o) m fun r _ m' =>
      ((∃ reason, r = .error reason) ∧ Same m m') ∨ ∃ parent, Started m hidden parent name m' ∧
        ∀ measured, r = .ok measured → ∃ entries,
          Holds root files m (parent ++ [name]) entries m' ∧ Measures entries measured := by
  refine (writeZip_ends hs missing).bind ?_
  rintro (reason | ⟨⟩) _ m₁ (⟨⟨e, h⟩, same⟩ | ⟨parent, started, held⟩)
  · exact .inl ⟨⟨_, rfl⟩, same⟩
  · exact .inr ⟨parent, started, fun _ h => by cases h⟩
  · cases h
  · obtain ⟨entries, holds⟩ := held rfl
    refine (measure_holds started holds).mono fun r _ m₂ ⟨same, hr⟩ => ?_
    exact .inr ⟨parent, started.same same, fun measured h =>
      ⟨entries, holds.same same, hr measured h⟩⟩

/-- Removing the hidden file removes it or nothing. -/
theorem removePartial_ends (h : Started m hidden parent name m') :
    (removePartial hidden).Ends (answer o) m' fun _ _ m'' => Started m hidden parent name m'' := by
  refine Ends.bind (p := Files.unlink hidden) (M := fun _ _ m'' =>
    Started m hidden parent name m'') (ends_request.mpr ?_) ?_
  · rcases changed_unlink o m' hidden with ⟨-, hop, hcwd⟩ | ⟨-, same⟩
    · have tame := Disk.unlink_tame hop
      obtain ⟨_, _, _, hp, -, -, hd⟩ := Disk.unlink_ok hop
      cases h.still.symm.trans hp
      refine h.next ?_ tame hcwd
      rw [hd]
      exact Disk.changedAt_erase _ _
    · exact h.same same
  · rintro (e | ⟨⟩) _ m₁ h₁
    · dsimp only
      split
      · exact h₁
      · exact h₁.same (same_quiet (Request.quiet_warn _) o m₁)
    · exact h₁.same (same_quiet (Request.quiet_debug (by simp)) o m₁)

/-- If the hidden file is missing, nothing is removed. -/
theorem removePartial_missing {parts : List Bytes}
    (hs : Disk.splitLast hidden.bytes = (parts, .name name false))
    (missing : ∀ dest, m.disk.get? (dest ++ [name]) = none) :
    (removePartial hidden).Ends (answer o) m fun _ _ m' => Same m m' := by
  refine Ends.bind (p := Files.unlink hidden) (M := fun _ _ m' => Same m m')
    (ends_request.mpr ?_) ?_
  · rcases changed_unlink o m hidden with ⟨-, hop, -⟩ | ⟨-, same⟩
    · obtain ⟨_, _, _, hp, hg, -⟩ := Disk.unlink_ok hop
      obtain ⟨-, -, hlast, -⟩ := Disk.lookupParent_eq_ok.mp hp
      rw [hs] at hlast
      cases hlast
      cases (missing _).symm.trans hg
    · exact same
  · rintro (e | ⟨⟩) _ m₁ same
    · dsimp only
      split
      · exact same
      · exact same.trans (same_quiet (Request.quiet_warn _) o m₁)
    · exact same.trans (same_quiet (Request.quiet_debug (by simp)) o m₁)

theorem writePartial_ends {parts : List Bytes}
    (hs : Disk.splitLast hidden.bytes = (parts, .name name false))
    (missing : ∀ dest, m.disk.get? (dest ++ [name]) = none) :
    (writePartial root files hidden).Ends (answer o) m fun r _ m' =>
      ((∃ reason, r = .error reason) ∧ Same m m') ∨ ∃ parent, Started m hidden parent name m' ∧
        ∀ measured, r = .ok measured → ∃ entries,
          Holds root files m (parent ++ [name]) entries m' ∧ Measures entries measured := by
  refine (writeAndMeasure_ends hs missing).bind ?_
  rintro (reason | measured) _ m₁ (⟨⟨e, h⟩, same⟩ | ⟨parent, started, held⟩)
  · have gone (dest : Place) : m₁.disk.get? (dest ++ [name]) = none := by
      rw [same.disk, missing]
    refine (removePartial_missing hs gone).bind fun _ _ _ same₁ => ?_
    exact .inl ⟨⟨_, rfl⟩, same.trans same₁⟩
  · refine (removePartial_ends started).bind fun _ _ _ started₁ => ?_
    exact .inr ⟨parent, started₁, fun _ h => by cases h⟩
  · cases h
  · exact .inr ⟨parent, started, held⟩

/-- The hidden file was moved to the output when it held the entries of all the files. -/
structure Delivered (root : Path) (files : List Path) (output : Path) (m : Machine)
    (entries : List Zip.Entry) (es : List (Request × Machine)) (m' : Machine) : Prop where
  moved : ∃ hidden parent name m₁ id dir outName,
    Started m hidden parent name m₁ ∧ (.rename hidden output, m₁) ∈ es ∧
      m₁.disk.Moved m₁.cwd (parent ++ [name]) output
        (.file id Disk.newMode (Zip.encode entries)) dir outName m'.disk
  cwd : m'.cwd = m.cwd
  entries : ∃ d, m.disk.Grows d ∧ List.Forall₂ (EntryOf root d m.cwd) files entries

/-- No more than the hidden file has been worked on. -/
def Abandoned (hidden : Path) (name : Name) (m m' : Machine) : Prop :=
  Same m m' ∨ ∃ parent, Started m hidden parent name m'

theorem Abandoned.same (h : Abandoned hidden name m m') (same : Same m' m'') :
    Abandoned hidden name m m'' :=
  h.imp (·.trans same) fun ⟨parent, started⟩ => ⟨parent, started.same same⟩

theorem Abandoned.after (h : Abandoned hidden name m' m'') (same : Same m m') :
    Abandoned hidden name m m'' :=
  h.imp same.trans fun ⟨parent, started⟩ => ⟨parent, started.after same⟩

/-- After the removal of the hidden file, still no more than this file has been worked on. -/
theorem removePartial_abandoned {parts : List Bytes}
    (hs : Disk.splitLast hidden.bytes = (parts, .name name false))
    (missing : ∀ dest, m.disk.get? (dest ++ [name]) = none) (h : Abandoned hidden name m m') :
    (removePartial hidden).Ends (answer o) m' fun _ _ m'' => Abandoned hidden name m m'' := by
  rcases h with same | ⟨parent, started⟩
  · refine (removePartial_missing hs fun dest => ?_).mono fun _ _ _ h => .inl (same.trans h)
    rw [same.disk, missing]
  · exact (removePartial_ends started).mono fun _ _ _ h => .inr ⟨parent, h⟩

theorem Delivered.after {output : Path} {entries : List Zip.Entry}
    {es es' : List (Request × Machine)} (h : Delivered root files output m' entries es m'')
    (same : Same m m') (sub : es ⊆ es') : Delivered root files output m entries es' m'' := by
  obtain ⟨⟨hidden, parent, name, m₁, id, dir, outName, started, he, moved⟩, hcwd, hentries⟩ := h
  refine ⟨⟨hidden, parent, name, m₁, id, dir, outName, started.after same, sub he, moved⟩,
    hcwd.trans same.cwd, ?_⟩
  rwa [same.disk, same.cwd] at hentries

/-- The hidden file was renamed when it held the entries of all the files. -/
structure Renamed (root : Path) (files : List Path) (hidden output : Path) (name : Name) (m : Machine)
    (entries : List Zip.Entry) (es : List (Request × Machine)) (m' : Machine) : Prop where
  moved : ∃ parent id m₁, Started m hidden parent name m₁ ∧
    m₁.disk.get? (parent ++ [name]) = some (.file id Disk.newMode (Zip.encode entries)) ∧
    (.rename hidden output, m₁) ∈ es ∧ m₁.disk.rename m₁.cwd hidden output = .ok m'.disk ∧
    m'.cwd = m₁.cwd
  entries : ∃ d, m.disk.Grows d ∧ List.Forall₂ (EntryOf root d m.cwd) files entries

theorem Renamed.delivered {output : Path} {entries : List Zip.Entry} {es : List (Request × Machine)}
    (h : Renamed root files hidden output name m entries es m') :
    Delivered root files output m entries es m' := by
  obtain ⟨⟨parent, id, m₁, started, holds, he, hop, hcwd⟩, hentries⟩ := h
  obtain ⟨dir, outName, moved⟩ := Disk.rename_file started.still holds hop
  exact ⟨⟨hidden, parent, name, m₁, id, dir, outName, started, he, moved⟩,
    hcwd.trans started.cwd, hentries⟩

theorem writeAndMove_renames {output : Path} {deadline : Option Nat} {parts : List Bytes}
    (hs : Disk.splitLast hidden.bytes = (parts, .name name false))
    (missing : ∀ dest, m.disk.get? (dest ++ [name]) = none) :
    (writeAndMove root files hidden output deadline).Ends (answer o) m fun r es m' =>
      ((∃ stop, r = .error stop) ∧ Abandoned hidden name m m') ∨
        ∃ measured entries, r = .ok measured ∧ Measures entries measured ∧
          Renamed root files hidden output name m entries es m' := by
  refine Work.ends_bind.mpr (ends_await ?_ fun m₁ same₁ => ?_)
  · exact fun es m₁ same => .inl ⟨⟨_, rfl⟩, .inl same⟩
  have gone (dest : Place) : m₁.disk.get? (dest ++ [name]) = none := by rw [same₁.disk, missing]
  refine (writePartial_ends hs gone).mono fun written es₁ m₂ hw es₂ m₃ _ same₃ => ?_
  have started {parent : Place} (h : Started m₁ hidden parent name m₂) :
      Started m hidden parent name m₃ := (h.same same₃).after same₁
  have abandoned : Abandoned hidden name m m₃ :=
    hw.imp (fun h => same₁.trans (h.2.trans same₃)) fun ⟨parent, h, _⟩ => ⟨parent, started h⟩
  refine ⟨?_, .inl ⟨⟨_, rfl⟩, abandoned⟩⟩
  refine Work.ends_bind.mpr (Work.ends_ofExcept.mpr ?_)
  cases written with
  | error reason => exact .inl ⟨⟨_, rfl⟩, abandoned⟩
  | ok measured =>
    rcases hw with ⟨⟨_, h⟩, -⟩ | ⟨parent, hstarted, held⟩
    · cases h
    obtain ⟨entries, holds, measures⟩ := held measured rfl
    obtain ⟨id, hid⟩ := (holds.same same₃).file
    refine Work.ends_bind.mpr (Work.ends_now.mpr (ends_request.mpr ?_))
    refine Work.ends_bind.mpr (Work.ends_ofExcept.mpr ?_)
    rcases changed_rename o m₃ hidden output with ⟨hr, hop, hcwd⟩ | ⟨⟨e, hr⟩, same⟩
    · rw [hr]
      refine .inr ⟨measured, entries, rfl, measures, ?_, ?_⟩
      · exact ⟨parent, id, m₃, started hstarted, hid, by simp, hop, hcwd⟩
      · obtain ⟨d, hd, hentries⟩ := holds.entries
        rw [same₁.disk, same₁.cwd] at *
        exact ⟨d, hd, hentries⟩
    · rw [hr]
      exact .inl ⟨⟨_, rfl⟩, abandoned.same same⟩

theorem writeAndMove_ends {output : Path} {deadline : Option Nat} {parts : List Bytes}
    (hs : Disk.splitLast hidden.bytes = (parts, .name name false))
    (missing : ∀ dest, m.disk.get? (dest ++ [name]) = none) :
    (writeAndMove root files hidden output deadline).Ends (answer o) m fun r es m' =>
      ((∃ stop, r = .error stop) ∧ Abandoned hidden name m m') ∨
        ∃ measured entries, r = .ok measured ∧ Measures entries measured ∧
          Delivered root files output m entries es m' := by
  refine (writeAndMove_renames hs missing).mono fun r es m' h => h.imp_right ?_
  rintro ⟨measured, entries, hr, measures, renamed⟩
  exact ⟨measured, entries, hr, measures, renamed.delivered⟩

theorem prepare_ends {output : Path} {deadline : Option Nat} :
    (prepare root output deadline).Ends (answer o) m fun r _ m' =>
      Grown m m' ∧ ∀ files, r = .ok files →
        files ≠ [] ∧ Files.Collected m.disk m.cwd root files := by
  have only : (prepare root output).Only fun q => ∃ p, q.Makes p :=
    only_prepare root output (fun _ h => ⟨root, h.makes _⟩) fun p _ => ⟨p, .inr ⟨p, .refl p, rfl⟩⟩
  refine ⟨(only deadline).run_rel (fun m => (Same.refl m).grown) Grown.trans
    (fun q m ⟨p, hq⟩ => grown_makes hq o m) m, ?_⟩
  have logged : Same m (answer o (.log .info ("Archiving " ++ root.display ++ " into " ++
      output.display)) m).2 := same_quiet (Request.quiet_info (by simp)) o m
  refine (Work.ends_bind (Q := fun r _ _ => ∀ files, r = .ok files →
    files ≠ [] ∧ Files.Collected m.disk m.cwd root files)).mpr (Work.ends_now.mpr (ends_request.mpr ?_))
  refine Work.ends_bind.mpr (ends_await (fun _ _ _ _ h => by cases h) fun m₁ same => ?_)
  refine (Files.collect_ends root).mono fun collected _ m₂ ⟨_, hc⟩ _ m₃ _ _ => ?_
  refine ⟨?_, fun _ h => by cases h⟩
  refine Work.ends_bind.mpr (Work.ends_ofExcept.mpr ?_)
  cases collected with
  | error e => exact fun _ h => by cases h
  | ok found =>
    refine Work.ends_bind.mpr (Work.ends_failIf.mpr ?_)
    cases hempty : found.isEmpty with
    | true => exact fun _ h => by cases h
    | false =>
      have result : (makeParent output >>= fun _ => (pure found : Work (List Path))).Yields
          (· = found) := (Work.yields_true _).bind fun _ _ => Work.yields_pure rfl
      intro files h
      obtain rfl := (result deadline).run _ _ files h
      refine ⟨by simpa using hempty, ?_⟩
      have found := hc files rfl
      rwa [(logged.trans same).disk, (logged.trans same).cwd] at found

/-- To deliver files, draw a name that is nowhere on the disk, and work on the hidden file of this
name. -/
theorem ends_deliver {output : Path} {deadline : Option Nat}
    {Q : Except Stop (Nat × String) → List (Request × Machine) → Machine → Prop}
    (h : ∀ fresh m₁, Same m m₁ → slash ∉ Bytes.ofString fresh →
      (∀ dest, m₁.disk.get? (dest ++ [partialName output fresh]) = none) →
      ((writeAndMove root files (partialPath output fresh) output).onStop
        (removePartial (partialPath output fresh)) deadline).Ends (answer o) m₁ fun r es m' =>
          Q r ((.freshName, m) :: es) m') :
    (deliver root output files deadline).Ends (answer o) m Q := by
  have same : Same m (answer o .freshName m).2 := same_quiet (q := .freshName) trivial o m
  refine Work.ends_bind.mpr (Work.ends_now.mpr (ends_request.mpr ?_))
  refine h (answer o .freshName m).1 _ same (slash_notMem_freshName m.disk m.ticks) fun dest => ?_
  rw [same.disk]
  exact freshName_missing m.disk m.ticks fresh_infix_partialName dest

/-- Either the files were archived, or nothing but the hidden file was worked on; nothing was asked
but about this file. -/
theorem deliver_ends {output : Path} {deadline : Option Nat} :
    (deliver root output files deadline).Ends (answer o) m fun r es m' =>
      ((∃ stop, r = .error stop) ∧ ∃ fresh, slash ∉ Bytes.ofString fresh ∧
        Abandoned (partialPath output fresh) (partialName output fresh) m m' ∧
        ∀ e ∈ es, e.1.Archives output fresh) ∨
        ∃ measured entries, r = .ok measured ∧ Measures entries measured ∧
          Delivered root files output m entries es m' := by
  refine ends_deliver fun fresh m₁ same noSlash missing => ?_
  obtain ⟨parts, hs⟩ := splitLast_partialPath output noSlash
  have asked : ((writeAndMove root files (partialPath output fresh) output).onStop
      (removePartial (partialPath output fresh)) deadline).Ends (answer o) m₁ fun _ es _ =>
        ∀ e ∈ es, e.1.Archives output fresh :=
    (only_moveOrRemove root output fresh files deadline).ends
  have outcome : ((writeAndMove root files (partialPath output fresh) output).onStop
      (removePartial (partialPath output fresh)) deadline).Ends (answer o) m₁ fun r es m' =>
        ((∃ stop, r = .error stop) ∧
          Abandoned (partialPath output fresh) (partialName output fresh) m m') ∨
          ∃ measured entries, r = .ok measured ∧ Measures entries measured ∧
            Delivered root files output m entries es m' := by
    refine Work.ends_onStop.mpr ((writeAndMove_ends hs missing).mono ?_)
    rintro (stop | measured) es m₂ (⟨⟨e, h⟩, abandoned⟩ | ⟨_, entries, h, measures, delivered⟩)
    · exact (removePartial_abandoned hs missing abandoned).mono fun _ _ m₃ h =>
        .inl ⟨⟨_, rfl⟩, h.after same⟩
    · cases h
    · cases h
    · cases h
      exact .inr ⟨_, entries, rfl, measures, delivered.after same (List.Subset.refl _)⟩
  refine (asked.and outcome).mono ?_
  rintro r es m₂ ⟨asked, ⟨hr, abandoned⟩ | ⟨measured, entries, hr, measures, delivered⟩⟩
  · refine .inl ⟨hr, fresh, noSlash, abandoned, fun e he => ?_⟩
    rcases List.mem_cons.mp he with rfl | he
    · exact .inl trivial
    · exact asked e he
  · exact .inr ⟨measured, entries, hr, measures, delivered.after (.refl m) (by simp)⟩

/-- The entries have been read of all the files that are collected below a root, while nothing there
was changed. -/
def Complete (root : Path) (m : Machine) (entries : List Zip.Entry) : Prop :=
  ∃ files d, files ≠ [] ∧ Files.Collected m.disk m.cwd root files ∧ m.disk.Grows d ∧
    List.Forall₂ (EntryOf root d m.cwd) files entries

/-- An archive of all files has been moved from a hidden file to the output, and it is summed up. -/
structure Archived (root output : Path) (m : Machine) (entries : List Zip.Entry)
    (summary : Summary) (es : List (Request × Machine)) (m' : Machine) : Prop where
  complete : Complete root m entries
  moved : ∃ hidden m₁ src id dir name, m.disk.Tame m₁.disk ∧ m₁.cwd = m'.cwd ∧
    (.rename hidden output, m₁) ∈ es ∧ m₁.disk.Moved m₁.cwd src output
      (.file id Disk.newMode (Zip.encode entries)) dir name m'.disk
  path : summary.path = output
  files : summary.files = entries.length
  measures : Measures entries (summary.bytes, summary.sha256)

theorem write_ends {output : Path} {deadline : Option Nat} :
    (write root output deadline).Ends (answer o) m fun r es m' => ∀ summary, r = .ok summary →
      ∃ entries, Archived root output m entries summary es m' := by
  refine Work.ends_bind.mpr (prepare_ends.mono fun r es₁ m₁ ⟨grown, prepared⟩ => ?_)
  cases r with
  | error stop => exact fun _ h => by cases h
  | ok files =>
    obtain ⟨hne, collected⟩ := prepared files rfl
    refine Work.ends_bind.mpr (deliver_ends.mono fun r es₂ m₂ h => ?_)
    rcases h with ⟨⟨stop, rfl⟩, -⟩ | ⟨⟨bytes, sha256⟩, entries, rfl, measures, delivered⟩
    · exact fun _ h => by cases h
    refine Work.ends_bind.mpr (Work.ends_now.mpr (ends_request.mpr ?_))
    intro summary h
    obtain rfl := (Except.ok.inj h).symm
    obtain ⟨d, grows, hall⟩ := delivered.entries
    obtain ⟨hidden, parent, name, m₃, id, dir, outName, started, he, moved⟩ := delivered.moved
    have cwd : m₃.cwd = m₂.cwd := started.cwd.trans delivered.cwd.symm
    have tame : m.disk.Tame m₃.disk := grown.2.1.trans started.tame
    rw [grown.2.2] at hall
    exact ⟨entries, {
      complete := ⟨files, d, hne, collected, grown.1.trans grows, hall⟩
      moved := ⟨hidden, m₃, _, id, dir, outName, tame, cwd, by simp [he], moved⟩
      path := rfl
      files := hall.length_eq
      measures }⟩

end Archive

end LayerPack
