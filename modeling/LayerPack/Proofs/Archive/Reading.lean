import LayerPack.Archive.Write
import LayerPack.Proofs.Disk.Below
import LayerPack.Proofs.Machine.Answers
import LayerPack.Proofs.Pipeline.Requests
import Mathlib.Data.List.Forall2

/-! Reading files on a machine. Whatever the size of the reads is, what is read of a file is its
content, and nothing on the disk changes by it. -/
namespace LayerPack

open Program Machine

variable {o : Outside} {m : Machine}

namespace Files

theorem taken_le (buffer granted left : Nat) : taken buffer granted left ≤ left :=
  Nat.min_le_left ..

/-- What is read of an open file is all that was left in it. -/
theorem readFrom_returns (buffer : Nat) (held unread : ByteArray) :
    (readFrom buffer held (.data unread)).Returns
      fun r => ∀ content, r = .ok content → content = held ++ unread := by
  generalize hf : OpenFile.data unread = file
  fun_induction readFrom buffer held file generalizing unread with
  | case1 => cases hf
  | case2 held unread' ih =>
    cases hf
    intro r
    cases r with
    | error e => exact fun _ h => by cases h
    | ok granted =>
      dsimp only
      split
      next hz =>
        rintro content h
        cases h
        rw [ByteArray.size_eq_zero_iff.mp hz, ByteArray.append_empty]
      next hz =>
        have hn := taken_le buffer granted unread'.size
        have again := ih granted hz _ rfl
        rw [ByteArray.append_assoc, ← ByteArray.extract_eq_extract_append_extract _ (Nat.zero_le _) hn,
          ByteArray.extract_zero_size] at again
        exact again

theorem readAll_returns (buffer : Nat) (content : ByteArray) :
    (readAll buffer (.data content)).Returns fun r => ∀ read, r = .ok read → read = content := by
  have h := readFrom_returns buffer .empty content
  rwa [ByteArray.empty_append] at h

end Files

theorem Files.readAll_ends (buffer : Nat) (file : OpenFile) :
    (readAll buffer file).Ends (answer o) m fun r _ m' =>
      Same m m' ∧ ∀ content, r = .ok content → file = .data content := by
  refine ⟨same_run (only_readAll buffer file) o m, fun content h => ?_⟩
  cases file with
  | data unread =>
    rw [(readAll_returns buffer unread).run (answer o) m content h]
  | directory =>
    exfalso
    obtain ⟨e, he⟩ : ∃ e, (answer o (.read .directory buffer) m).1 = .error e := by
      change ∃ e, (reading (o.fault m.ticks) _ (.error .isDirectory)).1 = .error e
      cases o.fault m.ticks <;> exact ⟨_, rfl⟩
    rw [readAll, readFrom, Program.run, he] at h
    cases h

namespace Archive

theorem readForHash_ends (p : Path) :
    (readForHash p).Ends (answer o) m fun r _ m' =>
      Same m m' ∧ ∀ content, r = .ok content → ∃ mode, m.disk.FileAt m.cwd p mode content := by
  refine ⟨same_run (only_readForHash p) o m, ?_⟩
  refine Ends.bind (Q := fun (r : Except Error ByteArray) _ _ => ∀ content, r = .ok content →
    ∃ mode, m.disk.FileAt m.cwd p mode content) (p := Files.openRead p)
    (M := fun r _ _ => ∀ file, r = .ok file → m.disk.openRead m.cwd p = .ok file)
    (fun _ h => openRead_ok h) fun r _ m' hr => ?_
  cases r with
  | error e => exact fun _ h => by cases h
  | ok file =>
    refine (Files.readAll_ends hashBuffer file).bind fun r _ _ hread => ?_
    cases r with
    | error e => exact fun _ h => by cases h
    | ok content =>
      rintro _ ⟨⟩
      exact Disk.fileAt_of_openRead (hread.2 content rfl ▸ hr file rfl)

/-- An entry is made of the name below the root, and of what is found at the path. -/
structure EntryOf (root : Path) (d : Disk) (cwd : Place) (p : Path) (entry : Zip.Entry) : Prop where
  name : entryName root p = .ok entry.name
  file : ∃ mode, entry.mode = mode % 0o1000 ∧ d.FileAt cwd p mode entry.content

theorem readEntry_ends (root p : Path) :
    (readEntry root p).Ends (answer o) m fun r _ m' =>
      Same m m' ∧ ∀ entry, r = .ok entry → EntryOf root m.disk m.cwd p entry := by
  refine ⟨same_run (only_readEntry root p) o m, ?_⟩
  unfold readEntry
  split
  next => exact fun _ h => by cases h
  next name hname =>
    refine Ends.bind (Q := fun (r : Except String Zip.Entry) _ _ => ∀ entry, r = .ok entry →
      EntryOf root m.disk m.cwd p entry) (p := Files.stat p)
      (M := fun r _ m' => Same m m' ∧ ∀ status, r = .ok status →
        m.disk.stat m.cwd true p = .ok status)
      ⟨same_quiet (q := .stat true p) trivial o m, fun _ h => stat_ok h⟩ fun r _ m' hr => ?_
    cases r with
    | error e => exact fun _ h => by cases h
    | ok status =>
      refine Ends.bind (p := Files.openRead p) (M := fun r _ _ => ∀ file, r = .ok file →
        m'.disk.openRead m'.cwd p = .ok file) (fun _ h => openRead_ok h) fun r _ _ hopen => ?_
      cases r with
      | error e => exact fun _ h => by cases h
      | ok file =>
        refine (Files.readAll_ends copyBuffer file).bind fun r _ _ hread => ?_
        cases r with
        | error e => exact fun _ h => by cases h
        | ok content =>
          rintro _ ⟨⟩
          obtain ⟨same, hstat⟩ := hr
          have hopen := hopen file rfl
          rw [same.disk, same.cwd, hread.2 content rfl] at hopen
          obtain ⟨mode, hfile⟩ := Disk.fileAt_of_openRead hopen
          refine ⟨hname, mode, ?_, hfile⟩
          have := (Disk.stat_of_fileAt hfile).symm.trans (hstat status rfl)
          cases this
          rfl

theorem readEntries_ends (root : Path) (files : List Path) :
    (readEntries root files).Ends (answer o) m fun r _ m' =>
      Same m m' ∧ ∀ entries, r = .ok entries →
        List.Forall₂ (EntryOf root m.disk m.cwd) files entries := by
  refine ⟨same_run (only_readEntries root files) o m, ?_⟩
  induction files generalizing m with
  | nil =>
    rintro _ ⟨⟩
    exact .nil
  | cons p rest ih =>
    refine Ends.bind (Q := fun (r : Except String (List Zip.Entry)) _ _ => ∀ entries,
      r = .ok entries → List.Forall₂ (EntryOf root m.disk m.cwd) (p :: rest) entries)
      (readEntry_ends root p) fun r _ m' hr => ?_
    cases r with
    | error reason => exact fun _ h => by cases h
    | ok entry =>
      obtain ⟨same, hentry⟩ := hr
      refine Ends.bind (M := fun r _ _ => ∀ entries, r = .ok entries →
        List.Forall₂ (EntryOf root m.disk m.cwd) rest entries) ?_ fun r _ _ hrest => ?_
      · have := ih (m := m')
        rwa [same.disk, same.cwd] at this
      · cases r with
        | error reason => exact fun _ h => by cases h
        | ok entries =>
          rintro _ ⟨⟩
          exact .cons (hentry entry rfl) (hrest entries rfl)

theorem fileDigest_ends (p : Path) :
    (fileDigest p).Ends (answer o) m fun r _ _ => ∀ digest, r = .ok digest →
      ∃ mode content, m.disk.FileAt m.cwd p mode content ∧
        Sha256.hexDigest content = digest := by
  refine (readForHash_ends p).bind fun r _ _ hread => ?_
  intro digest h
  cases r with
  | error e => cases h
  | ok content =>
    obtain ⟨mode, hfile⟩ := hread.2 content rfl
    exact ⟨mode, content, hfile, Except.ok.inj h⟩

/-- What is measured is the file that the path leads to. -/
theorem measure_ends (p : Path) :
    (measure p).Ends (answer o) m fun r _ m' =>
      Same m m' ∧ ∀ bytes sha256, r = .ok (bytes, sha256) → ∃ mode content,
        m.disk.FileAt m.cwd p mode content ∧ content.size = bytes ∧
          Sha256.hexDigest content = sha256 := by
  refine ⟨same_run (only_measure p) o m, ?_⟩
  refine Ends.bind (Q := fun (r : Except String (Nat × String)) _ _ => ∀ bytes sha256,
    r = .ok (bytes, sha256) → ∃ mode content, m.disk.FileAt m.cwd p mode content ∧
      content.size = bytes ∧ Sha256.hexDigest content = sha256) (p := Files.stat p)
    (M := fun r _ m' => Same m m' ∧ ∀ status, r = .ok status →
      m.disk.stat m.cwd true p = .ok status)
    ⟨same_quiet (q := .stat true p) trivial o m, fun _ h => stat_ok h⟩ fun r _ m' hr => ?_
  cases r with
  | error e => exact fun _ _ h => by cases h
  | ok status =>
    obtain ⟨same, hstat⟩ := hr
    refine (fileDigest_ends p).bind fun r _ _ hdigest => ?_
    rw [same.disk, same.cwd] at hdigest
    cases r with
    | error e => exact fun _ _ h => by cases h
    | ok digest =>
      intro bytes sha256 h
      obtain ⟨hbytes, hsha⟩ := Prod.mk.inj (Except.ok.inj h)
      obtain ⟨mode, content, hfile, hd⟩ := hdigest digest rfl
      have hs := Except.ok.inj ((Disk.stat_of_fileAt hfile).symm.trans (hstat status rfl))
      exact ⟨mode, content, hfile, by rw [← hbytes, ← hs], hd.trans hsha⟩

end Archive

/-- The files below what a path leads to, in their order. If that is no directory, it is the path
itself or nothing. -/
def Files.Collected (d : Disk) (cwd : Place) (root : Path) (files : List Path) : Prop :=
  ∃ place node, d.resolve cwd true root = .ok (place, node) ∧
    (node.isDir = true → node.filesBelow root = .ok files) ∧
    (node.isDir = false → files = [root] ∨ files = [])

theorem Files.below_ends (root : Path) :
    (collect.below root).Ends (answer o) m fun r _ _ => ∀ files, r = .ok files →
      ∃ place node, m.disk.resolve m.cwd true root = .ok (place, node) ∧
        node.filesBelow root = .ok files := by
  refine Ends.bind (p := request (.snapshot root)) (M := fun r _ _ => ∀ node, r = .ok node →
    m.disk.snapshot m.cwd root = .ok node) (fun _ h => snapshot_ok h) fun r _ _ hr => ?_
  cases r with
  | error e => exact fun _ h => by cases h
  | ok node =>
    intro files h
    obtain ⟨place, hplace⟩ := Disk.snapshot_ok (hr node rfl)
    refine ⟨place, node, hplace, ?_⟩
    change (node.filesBelow root).mapError walkFailure = .ok files at h
    cases hf : node.filesBelow root with
    | error e =>
      rw [hf] at h
      cases h
    | ok files' =>
      rw [hf] at h
      cases h
      rfl

theorem Files.collect_ends (root : Path) :
    (collect root).Ends (answer o) m fun r _ m' =>
      Same m m' ∧ ∀ files, r = .ok files → Collected m.disk m.cwd root files := by
  refine ⟨same_run (only_collect root) o m, ?_⟩
  -- the walk is about a directory, whether the path is one or a link to one
  have walked {m' : Machine} (same : Same m m') {place : Place} {node : Node}
      (hplace : m.disk.resolve m.cwd true root = .ok (place, node)) (hd : node.isDir = true) :
      (collect.below root).Ends (answer o) m' fun r _ _ => ∀ files, r = .ok files →
        Collected m.disk m.cwd root files := by
    refine (below_ends root).mono fun r _ _ h files hr => ?_
    obtain ⟨_, _, hplace', hfiles⟩ := h files hr
    rw [same.disk, same.cwd] at hplace'
    cases hplace.symm.trans hplace'
    exact ⟨place, node, hplace, fun _ => hfiles, fun h => by simp [hd] at h⟩
  refine Ends.bind (Q := fun (r : Except Error (List Path)) _ _ => ∀ files, r = .ok files →
      Collected m.disk m.cwd root files) (p := lstat root)
    (M := fun r _ m' => Same m m' ∧ ∀ status, r = .ok status →
      m.disk.stat m.cwd false root = .ok status)
    ⟨same_quiet (q := .stat false root) trivial o m, fun _ h => stat_ok h⟩ fun r _ m' hr => ?_
  cases r with
  | error e => exact fun _ h => by cases h
  | ok status =>
    obtain ⟨same, hstat⟩ := hr
    obtain ⟨place, node, hplace, rfl⟩ := Disk.stat_ok (hstat status rfl)
    dsimp only
    cases node with
    | file id mode content =>
      rintro _ ⟨⟩
      exact ⟨place, _, Disk.resolve_follow hplace rfl, fun h => (by cases h), fun _ => .inl rfl⟩
    | dir es => exact walked same (Disk.resolve_follow hplace rfl) rfl
    | link target =>
      refine Ends.bind (p := stat root) (M := fun r _ m'' => Same m m'' ∧ ∀ status,
          r = .ok status → m.disk.stat m.cwd true root = .ok status) ?_ fun r _ m'' hr => ?_
      · refine ⟨same.trans (same_quiet (q := .stat true root) trivial o m'), fun status h => ?_⟩
        rw [← same.disk, ← same.cwd]
        exact stat_ok h
      cases r with
      | error e => exact fun _ h => by cases h
      | ok status =>
        obtain ⟨same, hstat⟩ := hr
        obtain ⟨place, node, hplace, rfl⟩ := Disk.stat_ok (hstat status rfl)
        dsimp only
        split
        next hk => exact walked same hplace ((Node.isDir_iff_kind.mpr hk))
        next hk =>
          rintro _ ⟨⟩
          exact ⟨place, node, hplace, fun hd => (hk (Node.isDir_iff_kind.mp hd)).elim, fun _ => .inr rfl⟩

end LayerPack
