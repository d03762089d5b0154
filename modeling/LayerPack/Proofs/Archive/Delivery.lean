import LayerPack.Proofs.Archive.Agreement
import LayerPack.Proofs.Archive.Writing
import LayerPack.Proofs.Disk.Filed

/-! The delivery of an archive on twins. Their hidden files have different names, of which nobody can
tell but by their length: the files are written with the same bytes at the same directory, or they are
not for the same reason, and once they are moved or removed the disks are alike again. -/
namespace LayerPack

open Program Machine

variable {k : Kinship} {asked : Call → Prop} {o : Outside} {m m' n n' : Machine}
  {up : List Name} {last name : Name} {output root : Path} {fresh fresh' : String}

namespace Archive

/-- The hidden file of a path that is written by its names. -/
theorem partialPath_ofNames (h : ∀ n ∈ up ++ [last], ProperName n)
    (hs : slash ∉ Bytes.ofString fresh) :
    partialPath (.ofNames (up ++ [last])) fresh =
      .ofNames (up ++ [partialName (.ofNames (up ++ [last])) fresh]) :=
  Path.withFileName_ofNames h (properName_partialName hs)

theorem length_partialName (output : Path)
    (h : (Bytes.ofString fresh).length = (Bytes.ofString fresh').length) :
    (partialName output fresh).length = (partialName output fresh').length := by
  unfold partialName
  simp only [Bytes.ofString_append, List.length_append, h]

theorem mem_partialName (output : Path) {b : UInt8} (h : b ∉ Bytes.ofString fresh)
    (h' : b ∉ Bytes.ofString fresh') : b ∈ partialName output fresh ↔ b ∈ partialName output fresh' := by
  unfold partialName
  simp only [Bytes.ofString_append, List.mem_append, h, h']

/-- A check of a path does not tell its last names apart if they have the same length. -/
theorem checkPath_concat (up : List Name) {name name' : Name} (h : name.length = name'.length)
    (nul : 0 ∈ name ↔ 0 ∈ name') : Disk.checkPath (.ofNames (up ++ [name])) =
      Disk.checkPath (.ofNames (up ++ [name'])) := by
  obtain ⟨slashes, hf⟩ := Path.ofNames_concat up
  generalize (Path.ofNames up).bytes ++ slashes = front at hf
  have contained : (front ++ name).contains 0 = (front ++ name').contains 0 := by
    rw [Bool.eq_iff_iff]
    simp only [List.contains_iff_mem, List.mem_append, nul]
  have empty : front ++ name = [] ↔ front ++ name' = [] := by
    rw [← List.length_eq_zero_iff, ← List.length_eq_zero_iff, List.length_append, List.length_append, h]
  unfold Disk.checkPath
  rw [hf, hf, contained]
  simp only [empty, List.length_append, h]

/-- Hidden files of one output have the same directory. -/
theorem stand_partialName (h : ∀ n ∈ up ++ [last], ProperName n)
    (slashes : slash ∉ Bytes.ofString fresh ∧ slash ∉ Bytes.ofString fresh')
    (nuls : 0 ∉ Bytes.ofString fresh ∧ 0 ∉ Bytes.ofString fresh')
    (length : (Bytes.ofString fresh).length = (Bytes.ofString fresh').length) :
    Disk.Stand up (partialName (.ofNames (up ++ [last])) fresh)
      (partialName (.ofNames (up ++ [last])) fresh') := by
  have above : ∀ n ∈ up, ProperName n := fun n hn => h n (by simp [hn])
  have proper {fresh : String} (hs : slash ∉ Bytes.ofString fresh) :
      ∀ n ∈ up ++ [partialName (.ofNames (up ++ [last])) fresh], ProperName n := by
    intro n hn
    rcases List.mem_append.mp hn with hn | hn
    · exact above n hn
    · exact List.mem_singleton.mp hn ▸ properName_partialName hs
  have lengths := length_partialName (.ofNames (up ++ [last])) length
  exact ⟨proper slashes.1, proper slashes.2, lengths,
    checkPath_concat up lengths (mem_partialName _ nuls.1 nuls.2)⟩

section

variable (steady : o.Steady k asked) {files : List Path} (proper : ∀ n ∈ up ++ [name], ProperName n)

/-- The entries of the files stay the same while something is added to the disk. -/
def Settled (root : Path) (files : List Path) (d : Disk) : Prop :=
  ∀ cwd d', d.Grows d' → entriesAt root d' cwd files = entriesAt root d cwd files

/-- A disk on which a hidden file can be written. -/
structure Blank (root : Path) (files : List Path) (name : Name) (d : Disk) : Prop where
  form : d.root.WellFormed
  unused : ∀ dest, d.get? (dest ++ [name]) = none
  settled : Settled root files d

include steady proper

/-- How the hidden file is opened and written is known in advance. -/
theorem does_writeZip (blank : Blank root files name m.disk) :
    (∃ e, m.disk.lookupParent m.cwd (.ofNames (up ++ [name])) = .error e ∧
      (writeZip root files (.ofNames (up ++ [name]))).Does o k m
        (.error (failing ("creating " ++ (Path.ofNames (up ++ [name])).display) e)) [] m.disk) ∨
    ∃ parent, m.disk.lookupParent m.cwd (.ofNames (up ++ [name])) =
        .ok (parent, .name name false) ∧
      ((∃ reason d, entriesAt root m.disk m.cwd files = .error reason ∧
          m.disk.Filed parent name .empty d ∧
          (writeZip root files (.ofNames (up ++ [name]))).Does o k m (.error reason) [] d) ∨
        ∃ entries d, entriesAt root m.disk m.cwd files = .ok entries ∧
          m.disk.Filed parent name (Zip.encode entries) d ∧
          (writeZip root files (.ofNames (up ++ [name]))).Does o k m (.ok ())
            [.wrote (Zip.encode entries)] d) := by
  have opens : m.disk.lookup m.cwd true (.ofNames (up ++ [name])) = _ :=
    Disk.lookup_unused proper blank.unused true
  have opened := does_openWrite steady (m := m) true (.ofNames (up ++ [name]))
  rw [Disk.openWrite_unused opens] at opened
  cases hp : m.disk.lookupParent m.cwd (.ofNames (up ++ [name])) with
  | error e =>
    rw [hp] at opened
    exact .inl ⟨e, rfl, Does.bind opened fun n _ disk => does_done disk⟩
  | ok found =>
    obtain ⟨parent, rfl⟩ : ∃ parent, found = (parent, .name name false) :=
      ⟨_, Disk.lookupParent_concat proper hp⟩
    refine .inr ⟨parent, rfl, ?_⟩
    obtain ⟨d, opened, filed, there⟩ : ∃ d, (request (.openWrite true (.ofNames (up ++ [name])))).Does
        o k m (.ok ⟨parent ++ [name], m.disk.nextId⟩) [] d ∧ m.disk.Filed parent name .empty d ∧
          d.get? (parent ++ [name]) = some (.file m.disk.nextId Disk.newMode .empty) := by
      rw [hp] at opened
      obtain ⟨es, he⟩ := Disk.dir_of_lookupParent hp
      exact ⟨_, opened, Disk.filed_put blank.form hp (blank.unused parent) _ _,
        Disk.get?_put_self he⟩
    have read (n : Machine) (lapsed : Lapsed k m n) (disk : n.disk = d) :
        (readEntries root files).Finds o k n (entriesAt root m.disk m.cwd files) := by
      have found := finds_readEntries steady root files n
      rwa [disk, lapsed.cwd, blank.settled m.cwd d filed.grows] at found
    cases he : entriesAt root m.disk m.cwd files with
    | error reason =>
      rw [he] at read
      refine .inl ⟨reason, d, rfl, filed, Does.bind opened fun n lapsed disk => ?_⟩
      exact Does.after (read n lapsed disk) fun _ _ disk' => does_done (disk'.trans disk)
    | ok entries =>
      rw [he] at read
      have written : m.disk.Filed parent name (.empty ++ Zip.encode entries) _ := filed.append there
      rw [ByteArray.empty_append] at written
      refine .inr ⟨entries, _, rfl, written, Does.bind opened fun n lapsed disk => ?_⟩
      refine Does.after (read n lapsed disk) fun n₁ _ disk₁ => ?_
      have appended := does_append steady (m := n₁) ⟨parent ++ [name], m.disk.nextId⟩
        (Zip.encode entries)
      refine Does.bind appended fun n₂ _ disk₂ => ?_
      refine Does.after (finds_sync steady _) fun n₃ _ disk₃ => does_done ?_
      rw [disk₃, disk₂, disk₁, disk]

omit proper in
/-- What is measured of a file is its size and its digest. -/
theorem finds_measure {hidden : Path} {parent : Place} {id mode : Nat} {content : ByteArray}
    (way : m.disk.lookupParent m.cwd hidden = .ok (parent, .name name false))
    (file : m.disk.get? (parent ++ [name]) = some (.file id mode content)) :
    (measure hidden).Finds o k m (.ok (content.size, Sha256.hexDigest content)) := by
  have found := Disk.resolve_file way file true
  have stat : m.disk.stat m.cwd true hidden = .ok ⟨.file, mode, content.size⟩ := by
    rw [Disk.stat, found]
    rfl
  have opened : m.disk.openRead m.cwd hidden = .ok (.data content) := by
    rw [Disk.openRead, found]
    rfl
  have status := finds_stat steady (m := m) true hidden
  rw [stat] at status
  refine Finds.bind status fun n lapsed disk => ?_
  have file := finds_openRead steady (m := n) hidden
  rw [disk, lapsed.cwd, opened] at file
  have read : (readForHash hidden).Finds o k n (.ok content) := Finds.bind file fun n' _ _ =>
    Finds.bind (Files.finds_readAll steady hashBuffer (.data content) n') fun _ _ _ => finds_done _
  have digest : (fileDigest hidden).Finds o k n (.ok (Sha256.hexDigest content)) :=
    Finds.bind read fun _ _ _ => finds_done _
  exact Finds.bind digest fun _ _ _ => finds_done _

/-- Where there is no hidden file, none is removed. -/
theorem finds_removePartial (unused : ∀ dest, m.disk.get? (dest ++ [name]) = none) :
    (removePartial (.ofNames (up ++ [name]))).Finds o k m () := by
  have refused : ∃ e, m.disk.unlink m.cwd (.ofNames (up ++ [name])) = .error e := by
    unfold Disk.unlink
    cases hp : m.disk.lookupParent m.cwd (.ofNames (up ++ [name])) with
    | error e => exact ⟨e, rfl⟩
    | ok found =>
      rw [Disk.lookupParent_concat proper hp]
      simp only [Bind.bind, Except.bind, unused]
      exact ⟨_, rfl⟩
  obtain ⟨e, he⟩ := refused
  have removed := does_unlink steady (m := m) (.ofNames (up ++ [name]))
  rw [he] at removed
  refine Finds.bind removed fun n _ _ => ?_
  dsimp only [Except.map]
  split
  · exact finds_done _
  · exact finds_log steady _ _

omit proper in
/-- A hidden file is removed. -/
theorem does_removePartial {d : Disk} {hidden : Path} {parent : Place} {content : ByteArray}
    (way : d.lookupParent m.cwd hidden = .ok (parent, .name name false))
    (filed : d.Filed parent name content m.disk) :
    (removePartial hidden).Does o k m () [] (m.disk.erase (parent ++ [name])) := by
  have removed := does_unlink steady (m := m) hidden
  rw [filed.unlink way] at removed
  refine Does.bind removed fun n _ disk => ?_
  exact Does.after (finds_log steady _ _) fun _ _ disk' => does_done (disk'.trans disk)

/-- How the hidden file is written, and removed if that fails, is known in advance. -/
theorem does_writePartial (blank : Blank root files name m.disk) :
    (∃ e, m.disk.lookupParent m.cwd (.ofNames (up ++ [name])) = .error e ∧
      (writePartial root files (.ofNames (up ++ [name]))).Does o k m
        (.error (failing ("creating " ++ (Path.ofNames (up ++ [name])).display) e)) [] m.disk) ∨
    ∃ parent, m.disk.lookupParent m.cwd (.ofNames (up ++ [name])) =
        .ok (parent, .name name false) ∧
      ((∃ reason d, entriesAt root m.disk m.cwd files = .error reason ∧
          d.Alike m.disk ∧ d.root.WellFormed ∧
          (writePartial root files (.ofNames (up ++ [name]))).Does o k m (.error reason) [] d) ∨
        ∃ entries d, entriesAt root m.disk m.cwd files = .ok entries ∧
          m.disk.Filed parent name (Zip.encode entries) d ∧
          (writePartial root files (.ofNames (up ++ [name]))).Does o k m
            (.ok ((Zip.encode entries).size, Sha256.hexDigest (Zip.encode entries)))
            [.wrote (Zip.encode entries)] d) := by
  rcases does_writeZip steady proper blank with
    ⟨e, way, zipped⟩ | ⟨parent, way, ⟨reason, d, read, filed, zipped⟩ |
      ⟨entries, d, read, filed, zipped⟩⟩
  · refine .inl ⟨e, way, ?_⟩
    have failed : (writeAndMeasure root files (.ofNames (up ++ [name]))).Does o k m _ _ _ :=
      Does.bind zipped fun n _ disk => does_done disk
    refine Does.bind failed fun n lapsed disk => ?_
    refine Does.after (finds_removePartial steady proper fun dest => ?_) fun _ _ disk' =>
      does_done (disk'.trans disk)
    rw [disk, blank.unused]
  · refine .inr ⟨parent, way, .inl ⟨reason, _, read, filed.erased, filed.form_erased, ?_⟩⟩
    have failed : (writeAndMeasure root files (.ofNames (up ++ [name]))).Does o k m _ _ _ :=
      Does.bind zipped fun n _ disk => does_done disk
    refine Does.bind failed fun n lapsed disk => ?_
    subst disk
    have removed := does_removePartial steady (m := n) (by rw [lapsed.cwd]; exact way) filed
    exact Does.bind removed fun _ _ disk' => does_done disk'
  · refine .inr ⟨parent, way, .inr ⟨entries, d, read, filed, ?_⟩⟩
    obtain ⟨id, there⟩ := filed.file
    have measured : (writeAndMeasure root files (.ofNames (up ++ [name]))).Does o k m
        (.ok ((Zip.encode entries).size, Sha256.hexDigest (Zip.encode entries)))
        [.wrote (Zip.encode entries)] d := by
      refine Does.bind zipped fun n lapsed disk => ?_
      subst disk
      exact finds_measure steady (by rw [lapsed.cwd]; exact filed.still way) there
    exact Does.bind measured fun n _ disk => does_done disk

end

/-- The same text, up to the path that is named in it. -/
def Worded (p p' : Path) (text text' : String) : Prop :=
  text = text' ∨ ∃ before after, text = before ++ p.display ++ after ∧
    text' = before ++ p'.display ++ after

theorem worded_failing (p p' : Path) (before after : String) (e : SystemError) :
    Worded p p' (failing (before ++ p.display ++ after) e)
      (failing (before ++ p'.display ++ after) e) := by
  refine .inr ⟨before, after ++ ": " ++ e.message, ?_, ?_⟩
  · simp only [failing, String.append_assoc]
  · simp only [failing, String.append_assoc]

/-- The same error, but it may name different hidden files of one output. -/
inductive Like : Error → Error → Prop
  | same (e : Error) : Like e e
  | worded {output : Path} {fresh fresh' reason reason' : String}
      (h : Worded (partialPath output fresh) (partialPath output fresh') reason reason') :
      Like (.archive output reason) (.archive output reason')

/-- The work has stopped for the same reason. -/
inductive StopsLike : Stop → Stop → Prop
  | late : StopsLike .late .late
  | failed {e e' : Error} (h : Like e e') : StopsLike (.failed e) (.failed e')

theorem StopsLike.refl (stop : Stop) : StopsLike stop stop := by
  cases stop with
  | late => exact .late
  | failed e => exact .failed (.same e)

/-- Twins without hidden files. -/
structure Bare (name name' : Name) (d d' : Disk) : Prop where
  twins : Disk.Twins d d'
  unused : ∀ dest, d.get? (dest ++ [name]) = none
  unused' : ∀ dest, d'.get? (dest ++ [name']) = none

/-- Twins on which hidden files can be written. -/
structure Blanks (root : Path) (files : List Path) (name name' : Name) (d d' : Disk) : Prop where
  alike : d.Alike d'
  blank : Blank root files name d
  blank' : Blank root files name' d'

theorem Blanks.bare {files : List Path} {name' : Name} {d d' : Disk}
    (h : Blanks root files name name' d d') : Bare name name' d d' :=
  ⟨⟨h.alike, h.blank.form, h.blank'.form⟩, h.blank.unused, h.blank'.unused⟩

/-- Twins that have the same hidden file each, under different names. -/
def Hiding (up : List Name) (name name' : Name) (content : ByteArray) (d d' : Disk) : Prop :=
  ∃ b b' parent, Disk.Twins b b' ∧
    (∀ cwd, b.lookupParent cwd (.ofNames (up ++ [name])) = .ok (parent, .name name false)) ∧
    (∀ cwd, b'.lookupParent cwd (.ofNames (up ++ [name'])) = .ok (parent, .name name' false)) ∧
    b.Filed parent name content d ∧ b'.Filed parent name' content d'

/-- What has become of two hidden files: none has been written, or both have the same content. -/
inductive Written (k : Kinship) (up : List Name) (name name' : Name) :
    Except String (Nat × String) → Machine → Except String (Nat × String) → Machine → Prop
  | failed {n n' : Machine} {reason reason' : String} (worded : Worded (.ofNames (up ++ [name]))
      (.ofNames (up ++ [name'])) reason reason') (h : Kin k (Bare name name') n n') :
      Written k up name name' (.error reason) n (.error reason') n'
  | written {n n' : Machine} (measured : Nat × String) (content : ByteArray)
      (h : Kin k (Hiding up name name' content) n n') :
      Written k up name name' (.ok measured) n (.ok measured) n'

section

variable {files : List Path} {name' : Name} (steady : o.Steady k asked)

include steady

/-- The hidden files are written with the same bytes, or both are not. -/
theorem abreast_writePartial (stand : Disk.Stand up name name') :
    (writePartial root files (.ofNames (up ++ [name]))).Abreast (answer o) Drawn
      (Kin k (Blanks root files name name')) (writePartial root files (.ofNames (up ++ [name'])))
        (Written k up name name') := by
  refine Does.abreast fun m m' h => ?_
  obtain ⟨alike, blank, blank'⟩ := h.disk
  have ways := stand.lookupParent m.disk m.cwd
  have entries := entriesAt_alike alike root m.cwd files
  have way' : m.disk.lookupParent m.cwd (.ofNames (up ++ [name'])) =
      m'.disk.lookupParent m'.cwd (.ofNames (up ++ [name'])) := by
    rw [alike.lookupParent, h.cwd]
  rw [way'] at ways
  conv at entries => rhs; rw [← h.cwd]
  have back {e e' d d' : Disk} (hd : d.Alike m.disk) (hd' : d'.Alike m'.disk)
      (form : d.root.WellFormed) (form' : d'.root.WellFormed) (he : e = d ∧ e' = d') :
      Bare name name' e e' := by
    obtain ⟨rfl, rfl⟩ := he
    exact ⟨⟨hd.trans (alike.trans hd'.symm), form, form'⟩, fun dest =>
      hd.symm.missing (blank.unused dest), fun dest => hd'.symm.missing (blank'.unused dest)⟩
  rcases ways.outcome with ⟨e, way, way'⟩ | ⟨_, _, way, way', parent, rfl, rfl⟩
  · -- neither of the hidden files can be made
    rcases does_writePartial steady stand.proper blank with ⟨_, hw, does⟩ | ⟨_, hw, -⟩
    case inr => cases way.symm.trans hw
    rcases does_writePartial steady stand.proper' blank' with ⟨_, hw', does'⟩ | ⟨_, hw', -⟩
    case inr => cases way'.symm.trans hw'
    cases way.symm.trans hw
    cases way'.symm.trans hw'
    refine ⟨_, _, _, _, _, does, does', fun n n' hn => .failed ?_ { hn with disk := ?_ }⟩
    · have worded := worded_failing (.ofNames (up ++ [name])) (.ofNames (up ++ [name']))
        "creating " "" e
      rwa [String.append_empty, String.append_empty] at worded
    · exact back (.refl _) (.refl _) blank.form blank'.form hn.disk
  rcases does_writePartial steady stand.proper blank with ⟨_, hw, -⟩ | ⟨_, hw, made⟩
  · cases way.symm.trans hw
  cases way.symm.trans hw
  rcases does_writePartial steady stand.proper' blank' with ⟨_, hw', -⟩ | ⟨_, hw', made'⟩
  · cases way'.symm.trans hw'
  cases way'.symm.trans hw'
  rcases made with ⟨reason, d, read, alike₁, form₁, does⟩ | ⟨entries₁, d, read, filed, does⟩
  · rcases made' with ⟨reason', d', read', alike₁', form₁', does'⟩ | ⟨_, _, read', -⟩
    case inr => cases read.symm.trans (entries.trans read')
    cases read.symm.trans (entries.trans read')
    refine ⟨_, _, _, _, _, does, does', fun n n' hn => .failed (.inl rfl) { hn with disk := ?_ }⟩
    exact back alike₁ alike₁' form₁ form₁' hn.disk
  · rcases made' with ⟨_, _, read', -⟩ | ⟨entries₁', d', read', filed', does'⟩
    · cases read.symm.trans (entries.trans read')
    cases read.symm.trans (entries.trans read')
    refine ⟨_, _, _, _, _, does, does', fun n n' hn =>
      .written _ (Zip.encode entries₁) { hn with disk := ?_ }⟩
    obtain ⟨rfl, rfl⟩ := hn.disk
    exact ⟨m.disk, m'.disk, parent, ⟨alike, blank.form, blank'.form⟩, fun cwd => by
      rw [Disk.lookupParent_absolute (Path.isAbsolute_ofNames _) cwd m.cwd, way], fun cwd => by
      rw [Disk.lookupParent_absolute (Path.isAbsolute_ofNames _) cwd m'.cwd, way'], filed, filed'⟩

theorem prompt_written (a b : Except String (Nat × String)) :
    Work.Prompt (answer o) Drawn (fun t t' => Written k up name name' a t b t') k.Due := by
  intro deadline deadline' due s s' h
  cases h with
  | failed worded h =>
    exact (prompt steady deadline deadline' due).mono (fun _ _ _ _ h => ⟨h.1, .failed worded h.2⟩) s s' h
  | written measured content h =>
    exact (prompt steady deadline deadline' due).mono
      (fun _ _ _ _ h => ⟨h.1, .written measured content h.2⟩) s s' h

/-- Twins that have no hidden file, or the same one each. -/
def Unmoved (k : Kinship) (up : List Name) (name name' : Name) (m m' : Machine) : Prop :=
  Kin k (Bare name name') m m' ∨ ∃ content, Kin k (Hiding up name name' content) m m'

/-- Without their hidden files the machines are twins. -/
theorem abreast_removePartial (stand : Disk.Stand up name name') :
    (removePartial (.ofNames (up ++ [name]))).Abreast (answer o) Drawn (Unmoved k up name name')
      (removePartial (.ofNames (up ++ [name']))) fun _ n _ n' => Twin k n n' := by
  rintro m m' (h | ⟨content, h⟩)
  · refine Does.abreast (fun m m' h => ?_) m m' h
    refine ⟨(), (), [], _, _, finds_removePartial steady stand.proper h.disk.unused,
      finds_removePartial steady stand.proper' h.disk.unused', fun n n' hn => { hn with disk := ?_ }⟩
    rw [hn.disk.1, hn.disk.2]
    exact h.disk.twins
  · refine Does.abreast (fun m m' h => ?_) m m' h
    obtain ⟨b, b', parent, twins, way, way', filed, filed'⟩ := h.disk
    refine ⟨(), (), [], _, _, does_removePartial steady (way m.cwd) filed,
      does_removePartial steady (way' m'.cwd) filed', fun n n' hn => { hn with disk := ?_ }⟩
    rw [hn.disk.1, hn.disk.2]
    exact ⟨filed.erased.trans (twins.alike.trans filed'.erased.symm), filed.form_erased,
      filed'.form_erased⟩

/-- What has become of two hidden files that were to be moved to the output. -/
inductive Tried (k : Kinship) (up : List Name) (name name' : Name) :
    Except Stop (Nat × String) → Machine → Except Stop (Nat × String) → Machine → Prop
  | stopped {n n' : Machine} {stop stop' : Stop} (like : StopsLike stop stop')
      (h : Unmoved k up name name' n n') : Tried k up name name' (.error stop) n (.error stop') n'
  | moved {n n' : Machine} (measured : Nat × String) (h : Twin k n n') :
      Tried k up name name' (.ok measured) n (.ok measured) n'

omit steady in
/-- The hidden files are moved to the same place, unless there is a directory. -/
theorem Hiding.rename {content : ByteArray} {d d' : Disk} (h : Hiding up name name' content d d')
    (stand : Disk.Stand up name name') (proper : ∀ n ∈ up ++ [last], ProperName n)
    (hne : name ≠ last) (hne' : name' ≠ last) (cwd : Place) :
    Both Disk.Twins (d.rename cwd (.ofNames (up ++ [name])) (.ofNames (up ++ [last])))
      (d'.rename cwd (.ofNames (up ++ [name'])) (.ofNames (up ++ [last]))) := by
  obtain ⟨b, b', parent, twins, way, way', filed, filed'⟩ := h
  obtain ⟨same, found⟩ := Disk.lookupParent_beside proper stand.proper stand.proper'
    (filed.still (way cwd)) (filed'.still (way' cwd))
  unfold Disk.rename
  rw [filed.still (way cwd), filed'.still (way' cwd), ← same]
  cases hp : d.lookupParent cwd (.ofNames (up ++ [last])) with
  | error e => exact .error e
  | ok place =>
    rw [found place hp]
    change Both Disk.Twins (d.move (parent ++ [name]) parent last false)
      (d'.move (parent ++ [name']) parent last false)
    have hl := proper last (by simp)
    rcases filed.move hl hne with ⟨⟨es, he⟩, moved⟩ | ⟨free, e, moved, alike, form⟩
    · obtain ⟨es', he'⟩ := twins.alike.dir he
      rcases filed'.move hl hne' with ⟨-, moved'⟩ | ⟨free', -⟩
      · rw [moved, moved']
        exact .error _
      · exact (free' es' he').elim
    · rcases filed'.move hl hne' with ⟨⟨es, he⟩, -⟩ | ⟨-, e', moved', alike', form'⟩
      · obtain ⟨es', he'⟩ := twins.alike.symm.dir he
        exact (free es' he').elim
      · obtain ⟨es, hes⟩ := filed.dir
        rw [moved, moved']
        exact .ok ⟨alike.trans ((twins.alike.put hes (.refl _)).trans alike'.symm), form, form'⟩

theorem abreast_rename (content : ByteArray) (stand : Disk.Stand up name name')
    (proper : ∀ n ∈ up ++ [last], ProperName n) (hne : name ≠ last) (hne' : name' ≠ last) :
    (Files.rename (.ofNames (up ++ [name])) (.ofNames (up ++ [last]))).Abreast (answer o) Drawn
      (Kin k (Hiding up name name' content))
      (Files.rename (.ofNames (up ++ [name'])) (.ofNames (up ++ [last]))) fun r n r' n' =>
        (∃ e, r = .error e ∧ r' = .error e ∧ Kin k (Hiding up name name' content) n n') ∨
          r = .ok () ∧ r' = .ok () ∧ Twin k n n' := by
  refine Does.abreast fun m m' h => ?_
  have does := does_rename steady (m := m) (.ofNames (up ++ [name])) (.ofNames (up ++ [last]))
  have does' := does_rename steady (m := m') (.ofNames (up ++ [name'])) (.ofNames (up ++ [last]))
  have renamed := h.disk.rename stand proper hne hne' m.cwd
  rw [h.cwd] at does'
  refine ⟨_, _, _, _, _, does, does', fun n n' hn => ?_⟩
  rcases renamed.outcome with ⟨e, hr, hr'⟩ | ⟨d, d', hr, hr', twins⟩
  · rw [hr, hr'] at hn ⊢
    refine .inl ⟨e, rfl, rfl, { hn with disk := ?_ }⟩
    rw [hn.disk.1, hn.disk.2]
    exact h.disk
  · rw [hr, hr'] at hn ⊢
    refine .inr ⟨rfl, rfl, { hn with disk := ?_ }⟩
    rw [hn.disk.1, hn.disk.2]
    exact twins

theorem abreast_writeAndMove (stand : Disk.Stand up name name')
    (proper : ∀ n ∈ up ++ [last], ProperName n) (hne : name ≠ last) (hne' : name' ≠ last)
    (hidden : partialPath (.ofNames (up ++ [last])) fresh = .ofNames (up ++ [name]))
    (hidden' : partialPath (.ofNames (up ++ [last])) fresh' = .ofNames (up ++ [name']))
    {deadline deadline' : Option Nat} (due : k.Due deadline deadline') :
    (writeAndMove root files (.ofNames (up ++ [name])) (.ofNames (up ++ [last])) deadline).Abreast
      (answer o) Drawn (Kin k (Blanks root files name name'))
      (writeAndMove root files (.ofNames (up ++ [name'])) (.ofNames (up ++ [last])) deadline')
      (Tried k up name name') := by
  have like {reason reason' : String}
      (h : Worded (.ofNames (up ++ [name])) (.ofNames (up ++ [name'])) reason reason') :
      StopsLike (.failed (.archive (.ofNames (up ++ [last])) reason))
        (.failed (.archive (.ofNames (up ++ [last])) reason')) := by
    rw [← hidden, ← hidden'] at h
    exact .failed (.worded h)
  have partials : (Work.await (writePartial root files (.ofNames (up ++ [name]))) deadline).Abreast
      (answer o) Drawn (Kin k (Blanks root files name name'))
      (Work.await (writePartial root files (.ofNames (up ++ [name']))) deadline') _ :=
    Abreast.await (prompt steady) (abreast_writePartial steady stand) (prompt_written steady) due
  refine Abreast.bind partials fun r r' => ?_
  rintro s s' (⟨rfl, rfl, late⟩ | ⟨a, b, rfl, rfl, written⟩)
  · refine abreast_done (fun _ _ h => .stopped .late h) s s' ?_
    rcases late with h | ⟨a, b, h⟩
    · exact .inl { h with disk := h.disk.bare }
    · cases h with
      | failed _ h => exact .inl h
      | written _ content h => exact .inr ⟨content, h⟩
  cases written with
  | failed worded h => exact abreast_done (fun _ _ h => .stopped (like worded) h) s s' (.inl h)
  | written measured content h =>
    have renamed := (abreast_rename steady content stand proper hne hne').now deadline deadline'
    refine Abreast.bind renamed (fun r r' => ?_) s s' h
    rintro t t' ⟨moved, moved', rfl, rfl, ⟨e, rfl, rfl, h⟩ | ⟨rfl, rfl, h⟩⟩
    · exact abreast_done (fun _ _ h => .stopped (like (worded_failing _ _ "moving " " into place" e)) h)
        t t' (.inr ⟨content, h⟩)
    · exact abreast_done (fun _ _ h => .moved measured h) t t' h

/-- Twins deliver the same archive, or none for the same reason, and they stay twins. -/
theorem abreast_deliver (proper : ∀ n ∈ up ++ [last], ProperName n)
    {deadline deadline' : Option Nat} (due : k.Due deadline deadline') :
    (deliver root (.ofNames (up ++ [last])) files deadline).Abreast (answer o) Drawn
      (Kin k fun d d' => Disk.Twins d d' ∧ Settled root files d ∧ Settled root files d')
      (deliver root (.ofNames (up ++ [last])) files deadline') fun r n r' n' =>
        Paired StopsLike Eq r r' ∧ Twin k n n' := by
  have drawn : (request .freshName).Abreast (answer o) Drawn
      (Kin k fun d d' => Disk.Twins d d' ∧ Settled root files d ∧ Settled root files d')
      (request .freshName) fun fresh n fresh' n' =>
        Disk.Stand up (partialName (.ofNames (up ++ [last])) fresh)
          (partialName (.ofNames (up ++ [last])) fresh') ∧
        (slash ∉ Bytes.ofString fresh ∧ slash ∉ Bytes.ofString fresh') ∧
        Kin k (Blanks root files (partialName (.ofNames (up ++ [last])) fresh)
          (partialName (.ofNames (up ++ [last])) fresh')) n n' := by
    refine abreast_asked rfl fun m m' h length length' => ?_
    obtain ⟨twins, settled, settled'⟩ := h.disk
    refine ⟨stand_partialName proper ?_ ?_ ?_, ?_, { h.step steady with disk := ?_ }⟩
    · exact ⟨slash_notMem_freshName _ _, slash_notMem_freshName _ _⟩
    · exact ⟨notMem_freshName (by decide) (by decide) _ _, notMem_freshName (by decide) (by decide) _ _⟩
    · exact Eq.trans length (Eq.symm length')
    · exact ⟨slash_notMem_freshName _ _, slash_notMem_freshName _ _⟩
    · exact ⟨twins.alike,
        ⟨twins.form, freshName_missing m.disk m.ticks fresh_infix_partialName, settled⟩,
        ⟨twins.form', freshName_missing m'.disk m'.ticks fresh_infix_partialName, settled'⟩⟩
  refine Abreast.bind (drawn.now deadline deadline') fun r r' => ?_
  rintro s s' ⟨fresh, fresh', rfl, rfl, stand, slashes, h⟩
  have spelled : (Path.ofNames (up ++ [last])).fileName? = some last :=
    (Path.Spells.ofNames proper).fileName?
  have hidden := partialPath_ofNames proper slashes.1
  have hidden' := partialPath_ofNames proper slashes.2
  have moved : (writeAndMove root files _ _ deadline).Abreast (answer o) Drawn _
      (writeAndMove root files _ _ deadline') _ :=
    abreast_writeAndMove steady stand proper (partialName_ne spelled) (partialName_ne spelled)
      hidden hidden' due
  rw [← hidden, ← hidden'] at moved
  refine Abreast.bind moved (fun r r' => ?_) s s' h
  intro t t' tried
  cases tried with
  | moved measured h => exact abreast_done (fun _ _ h => ⟨.ok rfl, h⟩) t t' h
  | stopped like h =>
    have removed := abreast_removePartial steady stand
    rw [← hidden, ← hidden'] at removed
    refine Abreast.bind removed (fun _ _ => ?_) t t' h
    exact abreast_done fun _ _ h => ⟨.error like, h⟩

omit steady in
/-- What was collected below a root can be read again while something is added. -/
theorem settled_of_collected {names : List Name} (hn : ∀ n ∈ names, ProperName n) (hne : names ≠ [])
    {d d' : Disk} {cwd : Place} (wf : d.root.WellFormed)
    (collected : Files.Collected d cwd (.ofNames names) files) (grows : d.Grows d') :
    Settled (.ofNames names) files d' := by
  intro cwd' d'' grows'
  have collected' : Files.Collected d cwd' (.ofNames names) files := by
    obtain ⟨place, node, found, rest⟩ := collected
    refine ⟨place, node, ?_, rest⟩
    rwa [Disk.resolve_absolute (Path.isAbsolute_ofNames _) cwd' cwd]
  rw [entriesAt_grown hn hne wf collected' (grows.trans grows'),
    entriesAt_grown hn hne wf collected' grows]

/-- Twins write the same archive, or none for the same reason. -/
theorem abreast_write {names : List Name} (hn : ∀ n ∈ names, ProperName n) (hne : names ≠ [])
    (proper : ∀ n ∈ up ++ [last], ProperName n) {deadline deadline' : Option Nat}
    (due : k.Due deadline deadline') :
    (write (.ofNames names) (.ofNames (up ++ [last])) deadline).Abreast (answer o) Drawn (Twin k)
      (write (.ofNames names) (.ofNames (up ++ [last])) deadline') fun r n r' n' =>
        Paired StopsLike Eq r r' ∧ Twin k n n' := by
  have alone (deadline : Option Nat) (m : Machine) (wf : m.disk.root.WellFormed) :
      (prepare (.ofNames names) (.ofNames (up ++ [last])) deadline).Ends (answer o) m fun r _ n =>
        ∀ files, r = .ok files → Settled (.ofNames names) files n.disk := by
    refine prepare_ends.mono fun r _ n ⟨grown, collected⟩ files hr => ?_
    exact settled_of_collected hn hne wf (collected files hr).2 grown.1
  have prepared := (agrees_prepare steady (.ofNames names) (.ofNames (up ++ [last])) deadline deadline'
    due).ends fun m m' h => ⟨alone deadline m h.disk.form, alone deadline' m' h.disk.form'⟩
  refine Abreast.bind prepared fun r r' => ?_
  rintro s s' ⟨⟨rfl, h⟩, settled, settled'⟩
  cases r with
  | error stop =>
    exact abreast_done (fun _ _ h => ⟨.error (.refl stop), h⟩) s s' h
  | ok files =>
    refine Abreast.bind (abreast_deliver steady proper due) (fun r r' => ?_) s s'
      { h with disk := ⟨h.disk, settled files rfl, settled' files rfl⟩ }
    rintro t t' ⟨paired, h⟩
    cases paired with
    | error like => exact abreast_done (fun _ _ h => ⟨.error like, h⟩) t t' h
    | @ok measured _ same =>
      subst same
      refine Abreast.bind (Work.agrees_log steady _ _ deadline deadline' due) (fun r r' => ?_) t t' h
      rintro u u' ⟨rfl, h⟩
      cases r with
      | error stop => exact abreast_done (fun _ _ h => ⟨.error (.refl stop), h⟩) u u' h
      | ok => exact abreast_done (fun _ _ h => ⟨.ok rfl, h⟩) u u' h

end

end Archive

end LayerPack
