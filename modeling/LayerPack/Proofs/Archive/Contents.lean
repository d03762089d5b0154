import LayerPack.Proofs.Archive.EntryName
import LayerPack.Proofs.Archive.Reading

/-! What an archive of a tree contains: its regular files with their names, their permissions and
their contents, in the order of the walk. The digest of the tree is taken over the same sequence of
names and contents, whenever it is taken, as long as the tree stays as it is. -/
namespace LayerPack

open Program Machine

variable {o : Outside} {m : Machine} {d d' : Disk} {cwd place : Place} {root : Path}
  {tree : Node} {file : List Name × Nat × ByteArray} {files : List Path} {entry : Zip.Entry}
  {entries : List Zip.Entry}

namespace Archive

/-- What an entry tells of a file. -/
def facts (entry : Zip.Entry) : Bytes × Nat × ByteArray :=
  (Bytes.ofString entry.name, entry.mode, entry.content)

/-- What is to be told of a file in a tree. -/
def factsOf (file : List Name × Nat × ByteArray) : Bytes × Nat × ByteArray :=
  (joinSlash file.1, file.2.1 % 0o1000, file.2.2)

/-- The entries are those of all regular files of a tree, in their order, and of nothing else. -/
structure Packs (tree : Node) (entries : List Zip.Entry) : Prop where
  files : entries.map facts = tree.regularFiles.map factsOf
  exactly : ∀ name content, (∃ entry ∈ entries, entry.name = name ∧ entry.content = content) ↔
    ∃ place id mode, Bytes.ofString name = joinSlash place ∧
      tree.get? place = some (.file id mode content)

theorem facts_injective : Function.Injective facts := by
  rintro ⟨name, mode, content⟩ ⟨name', mode', content'⟩ h
  simp only [facts, Prod.mk.injEq] at h
  obtain ⟨hname, rfl, rfl⟩ := h
  rw [Bytes.ofString_injective hname]

theorem packs_of_facts (wf : tree.WellFormed)
    (h : entries.map facts = tree.regularFiles.map factsOf) : Packs tree entries := by
  refine ⟨h, fun name content => ⟨?_, ?_⟩⟩
  · rintro ⟨entry, he, rfl, rfl⟩
    have hm : facts entry ∈ tree.regularFiles.map factsOf := h ▸ List.mem_map_of_mem he
    obtain ⟨⟨place, mode, content⟩, hf, heq⟩ := List.mem_map.mp hm
    simp only [factsOf, facts, Prod.mk.injEq] at heq
    obtain ⟨hname, -, rfl⟩ := heq
    obtain ⟨id, hg⟩ := (Node.mem_regularFiles wf).mp hf
    exact ⟨place, id, mode, hname.symm, hg⟩
  · rintro ⟨place, id, mode, hname, hg⟩
    have hf := (Node.mem_regularFiles wf).mpr ⟨id, hg⟩
    have hm : factsOf (place, mode, content) ∈ entries.map facts := h ▸ List.mem_map_of_mem hf
    obtain ⟨entry, he, heq⟩ := List.mem_map.mp hm
    simp only [factsOf, facts, Prod.mk.injEq] at heq
    obtain ⟨hname', -, hcontent⟩ := heq
    exact ⟨entry, he, Bytes.ofString_injective (hname'.trans hname.symm), hcontent⟩

/-- What is read as an entry is a file of the tree, also if something has been added to the disk. -/
theorem facts_of_entryOf (wf : d.root.WellFormed) {es : Entries}
    (hroot : d.resolve cwd true root = .ok (place, .dir es)) (grows : d.Grows d')
    (hf : file ∈ (Node.dir es).regularFiles) (he : EntryOf root d' cwd (root.descend file.1) entry) :
    facts entry = factsOf file := by
  obtain ⟨more, mode, content⟩ := file
  have hdir : d.get? place = some (.dir es) := Disk.lookup_sound (Disk.resolve_ok.mp hroot)
  have wft : (Node.dir es).WellFormed := wf.get? hdir
  obtain ⟨id, hg⟩ := (Node.mem_regularFiles wft).mp hf
  have hm := wft.properName hg
  have hfile : d'.get? (place ++ more) = some (.file id mode content) := by
    refine grows.file ?_
    rw [Disk.get?, Node.get?_append]
    change (d.get? place).bind _ = _
    rw [hdir]
    exact hg
  obtain ⟨es', hroot'⟩ := Disk.resolve_keeps grows.keepsWays hroot
  obtain ⟨mode', hmode, place', id', hok⟩ := he.file
  cases Disk.resolve_descend hroot' hm hfile hok
  rw [facts, factsOf, (entryName_below hm he.name).2, hmode]

theorem facts_of_read (wf : d.root.WellFormed) {es : Entries}
    (hroot : d.resolve cwd true root = .ok (place, .dir es)) (grows : d.Grows d')
    (walk : (Node.dir es).filesBelow root = .ok files)
    (read : List.Forall₂ (EntryOf root d' cwd) files entries) :
    entries.map facts = (Node.dir es).regularFiles.map factsOf := by
  obtain rfl := Node.filesBelow_ok walk
  have each {file : List Name × Nat × ByteArray} {entry : Zip.Entry}
      (hf : file ∈ (Node.dir es).regularFiles)
      (he : EntryOf root d' cwd (root.descend file.1) entry) :=
    facts_of_entryOf wf hroot grows hf he
  clear walk
  generalize (Node.dir es).regularFiles = tree at *
  induction tree generalizing entries with
  | nil =>
    cases read
    rfl
  | cons file rest ih =>
    cases read with
    | cons first read =>
      rw [List.map_cons, List.map_cons, each List.mem_cons_self first]
      exact congrArg _ (ih read fun hf => each (List.mem_cons_of_mem _ hf))

/-- What has been read of all the files that were collected, if there were some, is an archive of
the tree. -/
theorem packs_of_collected (wf : d.root.WellFormed) (collected : Files.Collected d cwd root files)
    (some : files ≠ []) (grows : d.Grows d')
    (read : List.Forall₂ (EntryOf root d' cwd) files entries) :
    ∃ place es, d.resolve cwd true root = .ok (place, .dir es) ∧ Packs (.dir es) entries := by
  obtain ⟨place, node, hroot, hdir, hfile⟩ := collected
  have isDir : node.isDir = true := by
    by_contra hd
    obtain rfl := (hfile (by simpa using hd)).resolve_right some
    obtain ⟨entry, _, first, -, -⟩ := List.forall₂_cons_left_iff.mp read
    exact (@entryName_below _ [] _ (by simp) first.name).1 rfl
  cases node with
  | file | link => cases isDir
  | dir es =>
    have wft : (Node.dir es).WellFormed :=
      wf.get? (p := place) (Disk.lookup_sound (Disk.resolve_ok.mp hroot))
    exact ⟨place, es, hroot, packs_of_facts wft (facts_of_read wf hroot grows (hdir rfl) read)⟩

/-- What is read of the same tree another time is the same. -/
theorem entries_unique (wf : d.root.WellFormed) {es : Entries}
    (hroot : d.resolve cwd true root = .ok (place, .dir es))
    (packs : Packs (.dir es) entries) (collected : Files.Collected d cwd root files)
    {entries' : List Zip.Entry} (read : List.Forall₂ (EntryOf root d cwd) files entries') :
    entries' = entries := by
  obtain ⟨_, _, hroot', hdir, -⟩ := collected
  cases hroot.symm.trans hroot'
  have facts' := facts_of_read wf hroot (.refl d) (hdir rfl) read
  exact List.map_injective_iff.mpr facts_injective (facts'.trans packs.files.symm)

/-- What entries add to the digest of a tree, one after the other. -/
def records : List Zip.Entry → ByteArray
  | [] => .empty
  | entry :: rest => record entry.name entry.content ++ records rest

theorem recordsOf_ends (root : Path) (files : List Path) (deadline : Option Nat) :
    (recordsOf root files deadline).Ends (answer o) m fun r _ _ => ∀ bytes, r = .ok bytes →
      ∃ entries, List.Forall₂ (EntryOf root m.disk m.cwd) files entries ∧
        bytes = records entries := by
  induction files generalizing m with
  | nil =>
    rintro _ ⟨⟩
    exact ⟨[], .nil, rfl⟩
  | cons p rest ih =>
    refine Work.ends_bind.mpr (Work.ends_ofExcept.mpr ?_)
    cases hname : entryName root p with
    | error reason => exact fun _ h => by cases h
    | ok name =>
      refine Work.ends_bind.mpr (ends_await (fun _ _ _ _ h => by cases h) fun m₁ same₁ => ?_)
      refine (readForHash_ends p).mono fun read _ m₂ ⟨same₂, hread⟩ _ m₃ _ same₃ => ?_
      refine ⟨?_, fun _ h => by cases h⟩
      refine Work.ends_bind.mpr (Work.ends_ofExcept.mpr ?_)
      cases read with
      | error e => exact fun _ h => by cases h
      | ok content =>
        obtain ⟨mode, hfile⟩ := hread content rfl
        have same := same₁.trans (same₂.trans same₃)
        refine Work.ends_bind.mpr ((ih (m := m₃)).mono fun r _ _ hrest => ?_)
        cases r with
        | error e => exact fun _ h => by cases h
        | ok others =>
          rintro _ ⟨⟩
          obtain ⟨entries, hall, rfl⟩ := hrest others rfl
          rw [same₁.disk, same₁.cwd] at hfile
          rw [same.disk, same.cwd] at hall
          exact ⟨⟨name, mode % 0o1000, content⟩ :: entries, .cons ⟨hname, mode, rfl, hfile⟩ hall, rfl⟩

/-- A digest is that of entries of all the files that are collected below a root. -/
def Digested (d : Disk) (cwd : Place) (root : Path) (digest : String) : Prop :=
  ∃ files entries, Files.Collected d cwd root files ∧
    List.Forall₂ (EntryOf root d cwd) files entries ∧ Sha256.hexDigest (records entries) = digest

theorem treeDigest_ends (root : Path) (deadline : Option Nat) :
    (treeDigest root deadline).Ends (answer o) m fun r _ m' =>
      Same m m' ∧ ∀ digest, r = .ok digest → Digested m.disk m.cwd root digest := by
  refine ⟨same_run (only_treeDigest root deadline) o m, ?_⟩
  refine (Work.ends_bind (Q := fun r _ _ => ∀ digest, r = .ok digest →
    Digested m.disk m.cwd root digest)).mpr ?_
  refine ends_await (fun _ _ _ _ h => by cases h) fun m₁ same₁ => ?_
  refine (Files.collect_ends root).mono fun found _ m₂ ⟨same₂, hfound⟩ _ m₃ _ same₃ => ?_
  refine ⟨?_, fun _ h => by cases h⟩
  refine Work.ends_bind.mpr (Work.ends_ofExcept.mpr ?_)
  cases found with
  | error e => exact fun _ h => by cases h
  | ok files =>
    have same := same₁.trans (same₂.trans same₃)
    refine Work.ends_bind.mpr ((recordsOf_ends root files deadline).mono fun r _ _ hr => ?_)
    cases r with
    | error e => exact fun _ h => by cases h
    | ok bytes =>
      intro digest h
      obtain ⟨entries, hall, rfl⟩ := hr bytes rfl
      have collected := hfound files rfl
      rw [same₁.disk, same₁.cwd] at collected
      rw [same.disk, same.cwd] at hall
      exact ⟨files, entries, collected, hall, Except.ok.inj h⟩

end Archive

end LayerPack
