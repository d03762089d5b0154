import LayerPack.Proofs.Archive.Agreement
import LayerPack.Proofs.Hash.Streaming
import LayerPack.Proofs.Host.Buffer
import LayerPack.Proofs.Host.Walk

/-! Files that are hashed and archived in chunks. One buffer serves for all files, and one hasher for a
whole tree; what every read puts into the buffer is fed to the hasher, or added to the entry, at once.
What comes out is what whole contents make, for any size of the buffer and of the reads. -/
namespace LayerPack

open Program Machine

namespace Archive

open Sha256 (Hasher)

variable {k : Kinship} {asked : Call → Prop} {o : Outside} {m : Machine} {buffer : ByteArray}
  {hasher : Hasher}

/-! ### The loops -/

/-- Feeds a file to a hasher. -/
def feedFile (buffer : ByteArray) (hasher : Hasher) (p : Path) :
    Program (Except Error (ByteArray × Hasher)) := do
  match ← Files.openRead p with
  | .error e => return .error (.files "opening file for hashing" p e)
  | .ok file =>
    match ← Files.drain Hasher.update buffer hasher file with
    | .error e => return .error (.files "reading file for hash calculation" p e)
    | .ok fed => return .ok fed

/-- The digest of a single file, which is fed as it is read. -/
def fileDigestThrough (buffer : ByteArray) (p : Path) : Program (Except Error String) := do
  return (← feedFile buffer .start p).map fun fed => fed.2.finish

/-- Feeds a name and the zero byte behind it. -/
def feedName (hasher : Hasher) (name : String) : Hasher :=
  (hasher.update name.toUTF8).update [0].toByteArray

/-- Feeds the files below a root: of each its name, a zero byte, and what is read of it. -/
def feedFiles (root : Path) : ByteArray → Hasher → List Path → Work Hasher
  | _, hasher, [] => return hasher
  | buffer, hasher, p :: rest => do
    let name ← Work.ofExcept ((entryName root p).mapError .other)
    let fed ← Work.ofExcept (← Work.await (feedFile buffer (feedName hasher name) p))
    feedFiles root fed.1 fed.2 rest

/-- The digest of the tree below a root, with one hasher for all of its files. -/
def treeDigestThrough (buffer : ByteArray) (root : Path) : Work String := do
  let files ← Work.ofExcept (← Work.await (Files.collect root))
  return (← feedFiles root buffer .start files).finish

/-- Adds to the content of an entry. -/
def extend (entry : Zip.Entry) (bytes : ByteArray) : Zip.Entry :=
  { entry with content := entry.content ++ bytes }

/-- Starts an entry and adds a file to it as it is read. -/
def fillEntry (root : Path) (buffer : ByteArray) (p : Path) :
    Program (Except String (ByteArray × Zip.Entry)) := do
  match entryName root p with
  | .error reason => return .error reason
  | .ok name =>
    match ← Files.stat p with
    | .error e => return .error (failing ("reading " ++ p.display) e)
    | .ok status =>
      match ← Files.openRead p with
      | .error e => return .error (failing ("opening " ++ p.display) e)
      | .ok file =>
        match ← Files.drain extend buffer ⟨name, status.mode % 0o1000, .empty⟩ file with
        | .error e => return .error (failing ("reading " ++ p.display) e)
        | .ok filled => return .ok filled

def fillEntries (root : Path) : ByteArray → List Path → Program (Except String (List Zip.Entry))
  | _, [] => return .ok []
  | buffer, p :: rest => do
    match ← fillEntry root buffer p with
    | .error reason => return .error reason
    | .ok (buffer, entry) =>
      match ← fillEntries root buffer rest with
      | .error reason => return .error reason
      | .ok entries => return .ok (entry :: entries)

/-- Writes the files of a tree to a new file, through one buffer. -/
def writeZipThrough (buffer : ByteArray) (root : Path) (files : List Path) (destination : Path) :
    Program (Except String Unit) := do
  match ← request (.openWrite true destination) with
  | .error e => return .error (failing ("creating " ++ destination.display) e)
  | .ok handle =>
    match ← fillEntries root buffer files with
    | .error reason => return .error reason
    | .ok entries =>
      match ← request (.append handle (Zip.encode entries)) with
      | .error e => return .error (failing "finalizing archive" e)
      | .ok () =>
        match ← request (.sync handle) with
        | .error e => return .error (failing "syncing archive" e)
        | .ok () => return .ok ()

theorem additive_update : Files.Additive Hasher.update :=
  ⟨Hasher.update_empty, Hasher.update_append⟩

theorem additive_extend : Files.Additive extend where
  empty entry := by rw [extend, ByteArray.append_empty]
  append entry a b := by rw [extend, extend, extend, ByteArray.append_assoc]

/-! ### The same requests as for whole contents -/

theorem feedFile_mirrors (size : buffer.size = hashBuffer) (hasher : Hasher) (p : Path) :
    (feedFile buffer hasher p).Mirrors
      (Paired Eq fun fed content => fed.1.size = hashBuffer ∧ fed.2 = hasher.update content)
      (readForHash p) := by
  refine (mirrors_self (Files.openRead p)).bind fun r _ same => ?_
  subst same
  cases r with
  | error e => exact .done (.error rfl)
  | ok file =>
    have pos : 0 < buffer.size := size ▸ (by decide)
    have mirrors := Files.drain_mirrors additive_update pos hasher file
    rw [size] at mirrors
    refine mirrors.bind fun r r' h => ?_
    cases h with
    | error he => exact .done (.error (by rw [he]))
    | ok h => exact .done (.ok h)

theorem fileDigestThrough_eq (size : buffer.size = hashBuffer) (p : Path) :
    fileDigestThrough buffer p = fileDigest p := by
  refine Mirrors.eq ((feedFile_mirrors size .start p).bind fun r r' h => .done ?_)
  cases h with
  | error he => exact congrArg Except.error he
  | @ok fed content h =>
    have whole : fed.2.finish = Sha256.hexDigest content := by rw [h.2, Hasher.finish_update]
    exact congrArg Except.ok whole

/-- What a record adds to a hasher, and what comes after it. -/
theorem update_record (hasher : Hasher) (name : String) (content more : ByteArray) :
    ((feedName hasher name).update content).update more =
      hasher.update (record name content ++ more) := by
  rw [feedName, record, Hasher.update_append, Hasher.update_append, Hasher.update_append]

theorem feedFiles_mirrors (root : Path) (files : List Path) (size : buffer.size = hashBuffer)
    (hasher : Hasher) : (feedFiles root buffer hasher files).Mirrors
      (fun fed bytes => fed = hasher.update bytes) (recordsOf root files) := by
  induction files generalizing buffer hasher with
  | nil => exact Work.mirrors_pure (Hasher.update_empty hasher).symm
  | cons p rest ih =>
    refine (Work.mirrors_self _).bind fun name _ same => ?_
    subst same
    refine (Work.mirrors_await (feedFile_mirrors size _ p)).bind fun r r' h => ?_
    refine (Work.mirrors_ofExcept h).bind fun fed content ⟨size, hfed⟩ => ?_
    rw [← Work.bind_pure_self (feedFiles root fed.1 fed.2 rest)]
    refine (ih size fed.2).bind fun hasher' more h => Work.mirrors_pure ?_
    rw [h, hfed, update_record]

theorem treeDigestThrough_eq (size : buffer.size = hashBuffer) (root : Path) :
    treeDigestThrough buffer root = treeDigest root := by
  refine Work.Mirrors.eq ((Work.mirrors_self _).bind fun r _ same => ?_)
  subst same
  refine (Work.mirrors_self _).bind fun files _ same => ?_
  subst same
  refine (feedFiles_mirrors root files size .start).bind fun fed bytes h => Work.mirrors_pure ?_
  rw [h, Hasher.finish_update]

theorem fillEntry_mirrors (size : buffer.size = copyBuffer) (root p : Path) :
    (fillEntry root buffer p).Mirrors
      (Paired Eq fun filled entry => filled.1.size = copyBuffer ∧ filled.2 = entry)
      (readEntry root p) := by
  unfold fillEntry readEntry
  cases entryName root p with
  | error reason => exact .done (.error rfl)
  | ok name =>
    refine (mirrors_self (Files.stat p)).bind fun r _ same => ?_
    subst same
    cases r with
    | error e => exact .done (.error rfl)
    | ok status =>
      refine (mirrors_self (Files.openRead p)).bind fun r _ same => ?_
      subst same
      cases r with
      | error e => exact .done (.error rfl)
      | ok file =>
        have pos : 0 < buffer.size := size ▸ (by decide)
        have mirrors := Files.drain_mirrors additive_extend pos ⟨name, status.mode % 0o1000, .empty⟩ file
        rw [size] at mirrors
        refine mirrors.bind fun r r' h => ?_
        cases h with
        | error he => exact .done (.error (by rw [he]))
        | ok h => exact .done (.ok ⟨h.1, by rw [h.2, extend, ByteArray.empty_append]⟩)

theorem fillEntries_eq (root : Path) (files : List Path) (size : buffer.size = copyBuffer) :
    fillEntries root buffer files = readEntries root files := by
  induction files generalizing buffer with
  | nil => rfl
  | cons p rest ih =>
    refine Mirrors.eq ((fillEntry_mirrors size root p).bind fun r r' h => ?_)
    cases h with
    | error he =>
      rw [he]
      exact mirrors_self _
    | @ok filled entry h =>
      dsimp only
      rw [ih h.1, h.2]
      exact mirrors_self _

theorem writeZipThrough_eq (size : buffer.size = copyBuffer) (root : Path) (files : List Path)
    (destination : Path) :
    writeZipThrough buffer root files destination = writeZip root files destination := by
  rw [writeZipThrough, fillEntries_eq root files size]
  rfl

/-! ### What is found on a machine -/

/-- The content that a file has for a hash. -/
def contentAt (d : Disk) (cwd : Place) (p : Path) : Except Error ByteArray := do
  let file ← (d.openRead cwd p).mapError (.files "opening file for hashing" p)
  (Files.contentOf file).mapError (.files "reading file for hash calculation" p)

/-- The records of files below a root. -/
def recordsAt (root : Path) (d : Disk) (cwd : Place) : List Path → Except Error ByteArray
  | [] => .ok .empty
  | p :: rest => do
    let name ← (entryName root p).mapError .other
    let content ← contentAt d cwd p
    return record name content ++ (← recordsAt root d cwd rest)

/-- The digest of the tree below a root. -/
def treeDigestAt (root : Path) (d : Disk) (cwd : Place) : Except Error String :=
  (Files.collectedAt d cwd root >>= recordsAt root d cwd).map Sha256.hexDigest

/-- How writing the files of a tree ends, and the disk that it leaves. -/
def zippedAt (root : Path) (files : List Path) (destination : Path) (d : Disk) (cwd : Place) :
    Except String Unit × Disk :=
  match d.openWrite cwd true destination with
  | .error e => (.error (failing ("creating " ++ destination.display) e), d)
  | .ok (handle, opened) =>
    match entriesAt root opened cwd files with
    | .error reason => (.error reason, opened)
    | .ok entries => (.ok (), opened.append handle (Zip.encode entries))

section

variable (steady : o.Steady k asked)

include steady

theorem feedFile_finds (pos : 0 < buffer.size) (hasher : Hasher) (p : Path) :
    (feedFile buffer hasher p).FindsLike
      (Paired Eq fun fed content => 0 < fed.1.size ∧ fed.2 = hasher.update content) o k m
      (contentAt m.disk m.cwd p) := by
  refine Finds.bind_like (finds_openRead steady p) fun n lapsed disk => ?_
  unfold contentAt
  cases m.disk.openRead m.cwd p with
  | error e => exact findsLike_done (.error rfl)
  | ok file =>
    have drained := (Files.drain_mirrors additive_update pos hasher file).findsLike
      (Files.finds_readAll steady buffer.size file n)
    refine drained.bind fun r n' h _ _ => ?_
    change FindsLike _ _ _ _ _ ((Files.contentOf file).mapError _)
    generalize Files.contentOf file = content at h
    cases h with
    | error he => exact findsLike_done (.error (by rw [he]))
    | ok h => exact findsLike_done (.ok ⟨h.1 ▸ pos, h.2⟩)

theorem fileDigestThrough_finds (pos : 0 < buffer.size) (p : Path) :
    (fileDigestThrough buffer p).Finds o k m ((contentAt m.disk m.cwd p).map Sha256.hexDigest) := by
  refine FindsLike.bind (S := Eq) (feedFile_finds steady pos .start p) fun r n h _ _ => ?_
  generalize contentAt m.disk m.cwd p = content at h
  cases h with
  | error he =>
    subst he
    exact finds_done _
  | @ok fed content h =>
    have whole : fed.2.finish = Sha256.hexDigest content := by rw [h.2, Hasher.finish_update]
    exact findsLike_done (congrArg Except.ok whole)

theorem feedFiles_finds (pos : 0 < buffer.size) (root : Path) (files : List Path) (hasher : Hasher) :
    (feedFiles root buffer hasher files none).FindsLike
      (Paired Eq fun fed bytes => fed = hasher.update bytes) o k m
      ((recordsAt root m.disk m.cwd files).mapError .failed) := by
  -- The buffer and the hasher are those that the files in front have left.
  induction files generalizing buffer hasher m with
  | nil => exact findsLike_done (.ok (Hasher.update_empty hasher).symm)
  | cons p rest ih =>
    unfold feedFiles recordsAt
    cases entryName root p with
    | error reason => exact findsLike_done (.error rfl)
    | ok name =>
      refine FindsLike.awaited (x := contentAt m.disk m.cwd p)
        (f := fun fed => feedFiles root fed.1 fed.2 rest) (feedFile_finds steady pos _ p) ?_
      rintro fed content n ⟨size, hfed⟩ lapsed disk
      have again := ih (m := n) size fed.2
      rw [disk, lapsed.cwd] at again
      refine again.mono fun r es n' ⟨fits, nothing⟩ => ⟨?_, nothing⟩
      generalize recordsAt root m.disk m.cwd rest = more at fits
      cases more with
      | error e =>
        cases fits with
        | error he => exact .error he
      | ok more =>
        cases fits with
        | ok same => exact .ok (by rw [same, hfed, update_record])

theorem treeDigestThrough_finds (pos : 0 < buffer.size) (root : Path) :
    (treeDigestThrough buffer root none).Finds o k m
      ((treeDigestAt root m.disk m.cwd).mapError .failed) := by
  have awaited : (Work.await (Files.collect root) none).Finds o k m
      (.ok (Files.collectedAt m.disk m.cwd root)) :=
    Does.await steady (fun _ h => by cases h) fun n lapsed disk => by
      have found := Files.finds_collectedAt steady (m := n) root
      rwa [Finds, disk, lapsed.cwd] at found
  unfold treeDigestAt
  refine Finds.work_bind awaited fun n lapsed disk => ?_
  cases Files.collectedAt m.disk m.cwd root with
  | error e => exact finds_done _
  | ok files =>
    have fed := feedFiles_finds steady (m := n) pos root files .start
    rw [disk, lapsed.cwd] at fed
    refine FindsLike.bind (S := Eq) (p := feedFiles root buffer .start files none) fed fun r _ h _ _ => ?_
    change FindsLike _ _ _ _ _ (((recordsAt root m.disk m.cwd files).map Sha256.hexDigest).mapError _)
    generalize recordsAt root m.disk m.cwd files = bytes at h
    cases bytes with
    | error e =>
      cases h with
      | error he => exact findsLike_done (by rw [he]; rfl)
    | ok bytes =>
      cases h with
      | ok same => exact findsLike_done (by rw [same, Hasher.finish_update]; rfl)

theorem fillEntry_finds (pos : 0 < buffer.size) (root p : Path) :
    (fillEntry root buffer p).FindsLike
      (Paired Eq fun filled entry => 0 < filled.1.size ∧ filled.2 = entry) o k m
      (entryAt root m.disk m.cwd p) := by
  unfold fillEntry entryAt
  cases entryName root p with
  | error reason => exact findsLike_done (.error rfl)
  | ok name =>
    refine Finds.bind_like (finds_stat steady true p) fun n lapsed disk => ?_
    cases m.disk.stat m.cwd true p with
    | error e => exact findsLike_done (.error rfl)
    | ok status =>
      refine Finds.bind_like (finds_openRead steady p) fun n' lapsed' disk' => ?_
      rw [disk, lapsed.cwd]
      cases m.disk.openRead m.cwd p with
      | error e => exact findsLike_done (.error rfl)
      | ok file =>
        have drained := (Files.drain_mirrors additive_extend pos
          ⟨name, status.mode % 0o1000, .empty⟩ file).findsLike
          (Files.finds_readAll steady buffer.size file n')
        refine drained.bind fun r _ h _ _ => ?_
        change FindsLike _ _ _ _ _ (do
          let content ← (Files.contentOf file).mapError (failing ("reading " ++ p.display))
          return ⟨name, status.mode % 0o1000, content⟩ : Except String Zip.Entry)
        generalize Files.contentOf file = content at h
        cases h with
        | error he => exact findsLike_done (.error (by rw [he]))
        | ok h => exact findsLike_done (.ok ⟨h.1 ▸ pos, by rw [h.2, extend, ByteArray.empty_append]⟩)

theorem fillEntries_finds (pos : 0 < buffer.size) (root : Path) (files : List Path) :
    (fillEntries root buffer files).Finds o k m (entriesAt root m.disk m.cwd files) := by
  induction files generalizing buffer m with
  | nil => exact finds_done _
  | cons p rest ih =>
    unfold fillEntries entriesAt
    rw [List.mapM_cons]
    refine FindsLike.bind (S := Eq) (fillEntry_finds steady pos root p) fun r n h lapsed disk => ?_
    generalize entryAt root m.disk m.cwd p = entry at h
    cases h with
    | error he =>
      subst he
      exact finds_done _
    | @ok filled entry h =>
      have again := ih (m := n) h.1
      rw [disk, lapsed.cwd] at again
      refine Finds.bind again fun _ _ _ => ?_
      rw [h.2]
      unfold entriesAt
      cases rest.mapM (entryAt root m.disk m.cwd) <;> exact finds_done _

theorem writeZipThrough_does (pos : 0 < buffer.size) (root : Path) (files : List Path)
    (destination : Path) : ∃ deeds, (writeZipThrough buffer root files destination).Does o k m
      (zippedAt root files destination m.disk m.cwd).1 deeds
      (zippedAt root files destination m.disk m.cwd).2 := by
  have opens := does_openWrite steady (m := m) true destination
  unfold zippedAt
  cases ho : m.disk.openWrite m.cwd true destination with
  | error e =>
    rw [ho] at opens
    exact ⟨_, Does.bind opens fun _ _ disk => does_done disk⟩
  | ok opened =>
    obtain ⟨handle, d⟩ := opened
    rw [ho] at opens
    have filled (n : Machine) (lapsed : Lapsed k m n) (disk : n.disk = d) :
        (fillEntries root buffer files).Finds o k n (entriesAt root d m.cwd files) := by
      have found := fillEntries_finds steady (m := n) pos root files
      rwa [disk, lapsed.cwd] at found
    dsimp only
    cases he : entriesAt root d m.cwd files with
    | error reason =>
      rw [he] at filled
      exact ⟨_, Does.bind opens fun n lapsed disk => Does.after (filled n lapsed disk) fun _ _ disk' =>
        does_done (disk'.trans disk)⟩
    | ok entries =>
      rw [he] at filled
      refine ⟨_, Does.bind opens fun n lapsed disk => Does.after (filled n lapsed disk) fun n₁ _ disk₁ =>
        Does.bind (does_append steady handle (Zip.encode entries)) fun n₂ _ disk₂ =>
        Does.after (finds_sync steady handle) fun n₃ _ disk₃ => does_done ?_⟩
      rw [disk₃, disk₂, disk₁, disk]
      rfl

end

/-- Reading through a buffer loses and repeats nothing. With the buffers of the program the loops are the
programs that take contents as a whole. Whoever answers, what is read of a file are pieces of its content
that fit into the buffer, each passed on once and in order, and the read after them is the last. So
without failures the outcomes depend on the disk alone, however much each read returns and whatever size
the buffer has. -/
theorem whole_through_any_buffer (buffer : ByteArray) (pos : 0 < buffer.size) :
    (buffer.size = hashBuffer → (∀ p, fileDigestThrough buffer p = fileDigest p) ∧
      ∀ root, treeDigestThrough buffer root = treeDigest root) ∧
    (buffer.size = copyBuffer → ∀ root files destination,
      writeZipThrough buffer root files destination = writeZip root files destination) ∧
    (∀ {σ τ : Type} (pass : σ → ByteArray → σ) (passed : σ) (content : ByteArray) (answer : Answers τ)
      (s : τ), (Files.drain pass buffer passed (.data content)).Ends answer s fun r es _ =>
        ∀ buffer' passed', r = .ok (buffer', passed') → buffer'.size = buffer.size ∧ ∃ pieces,
          Files.Pieces buffer.size content pieces ∧ passed' = pieces.foldl pass passed ∧
            es.length = pieces.length + 1) ∧
    ∀ (o : Outside) (m : Machine), (∀ n, o.fault n = none) →
      (∀ p, (Machine.run o (fileDigestThrough buffer p) m).1 =
        (contentAt m.disk m.cwd p).map Sha256.hexDigest) ∧
      (∀ root, (Machine.run o (treeDigestThrough buffer root none) m).1 =
        (treeDigestAt root m.disk m.cwd).mapError .failed) ∧
      ∀ root files destination,
        (Machine.run o (writeZipThrough buffer root files destination) m).1 =
          (zippedAt root files destination m.disk m.cwd).1 ∧
        (Machine.run o (writeZipThrough buffer root files destination) m).2.disk =
          (zippedAt root files destination m.disk m.cwd).2 := by
  refine ⟨fun size => ⟨fileDigestThrough_eq size, treeDigestThrough_eq size⟩, writeZipThrough_eq,
    fun _ _ _ answer s => Files.drain_pieces pos answer s, fun o m sound => ?_⟩
  have steady := Outside.steady_of_sound sound
  refine ⟨fun p => (fileDigestThrough_finds steady pos p).1,
    fun root => (treeDigestThrough_finds steady pos root).1, fun root files destination => ?_⟩
  obtain ⟨_, result, _, _, disk⟩ := writeZipThrough_does steady (m := m) pos root files destination
  exact ⟨result, disk⟩

/-- A tree with an empty file and one of five bytes. -/
def smallTexts : Entries := [
  (Bytes.ofString "empty", .file 0 0o644 .empty),
  (Bytes.ofString "text", .file 1 0o600 "small".toUTF8)]

/-- Five bytes go through two old ones, and reads return one or two of them. -/
theorem small_texts_through_two_bytes :
    let buffer : ByteArray := ⟨#[7, 7]⟩
    let m := Machine.small [("t", .dir smallTexts)]
    let o := { Outside.small [] with grant := fun tick _ => tick }
    let records := record "empty" .empty ++ record "text" "small".toUTF8
    (Machine.run o (fileDigestThrough buffer (.ofString "/t/text")) m).1 =
      .ok (Sha256.hexDigest "small".toUTF8) ∧
    (Machine.run o (treeDigestThrough buffer (.ofString "/t") none) m).1 =
      .ok (Sha256.hexDigest records) ∧
    ((Machine.run o (writeZipThrough buffer (.ofString "/t") [.ofString "/t/text"] (.ofString "/z"))
      m).2.disk.get? [Bytes.ofString "z"]).isSome ∧
    fileDigestThrough ⟨Array.replicate hashBuffer 0⟩ = fileDigest ∧
    writeZipThrough ⟨Array.replicate copyBuffer 0⟩ = writeZip := by
  intro buffer m o records
  obtain ⟨-, -, -, finds⟩ := whole_through_any_buffer buffer (by decide)
  obtain ⟨hashes, digests, zips⟩ := finds o m fun _ => rfl
  have content : contentAt m.disk m.cwd (.ofString "/t/text") = .ok "small".toUTF8 := by decide +kernel
  have files : Files.collectedAt m.disk m.cwd (.ofString "/t") =
      .ok [.ofString "/t/empty", .ofString "/t/text"] := by cbv
  have fed : recordsAt (.ofString "/t") m.disk m.cwd [.ofString "/t/empty", .ofString "/t/text"] =
      .ok records := by decide +kernel
  have made : ((zippedAt (.ofString "/t") [.ofString "/t/text"] (.ofString "/z") m.disk m.cwd).2.get?
      [Bytes.ofString "z"]).isSome := by decide +kernel
  have size (n : Nat) : (⟨Array.replicate n 0⟩ : ByteArray).size = n := Array.size_replicate
  refine ⟨?_, ?_, ?_, funext ?_, ?_⟩
  · rw [hashes, content]
    rfl
  · rw [digests, treeDigestAt, files]
    change ((recordsAt _ m.disk m.cwd _).map Sha256.hexDigest).mapError _ = _
    rw [fed]
    rfl
  · rw [(zips _ _ _).2]
    exact made
  · exact ((whole_through_any_buffer _ ((size hashBuffer).symm ▸ by decide)).1 (size _)).1
  · funext root files destination
    exact (whole_through_any_buffer _ ((size copyBuffer).symm ▸ by decide)).2.1 (size _) root files
      destination

end Archive

end LayerPack
