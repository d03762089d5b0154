import LayerPack.Proofs.Archive.Extraction
import LayerPack.Proofs.Archive.Failure
import LayerPack.Proofs.Disk.Decide
import LayerPack.Proofs.Settings.Accepted

/-! An archive is an encoding of the tree that it was made of. Its entries are the regular files of the
tree, under names that lead to the same places below every directory, and there is an archive of every
tree that has files and whose paths are text, if the system does its part. -/
namespace LayerPack.Archive

open Program Machine

/-- The entries are an archive of a tree, and the tree's files can be had back from them. -/
structure Encodes (tree : Node) (entries : List Zip.Entry) : Prop where
  /-- There is one entry for each regular file, in the order of their paths. -/
  files : ∃ files : List (List Name × Nat × ByteArray), files.Pairwise (fun f g => Before f.1 g.1) ∧
    (∀ place mode content, (place, mode, content) ∈ files ↔
      ∃ id, tree.get? place = some (.file id mode content)) ∧
    entries.map facts = files.map factsOf
  distinct : (entries.map (·.name)).Nodup
  named : ∀ entry ∈ entries, entry.name ≠ "" ∧ (Path.ofString entry.name).isAbsolute = false ∧
    ∀ part ∈ splitSlash (Bytes.ofString entry.name), part ≠ [] ∧ part ≠ dot ∧ part ≠ dotdot
  onlyFiles : ∀ entry ∈ entries, ∀ place node, tree.get? place = some node →
    Bytes.ofString entry.name = joinSlash place → node.isFile = true
  /-- Extracted into an empty directory, they put the files there and change nothing elsewhere. -/
  rebuilds : ∀ (root : Node) (dest : Place) (next : Nat), root.get? dest = some (.dir []) →
    ∃ root', extract dest next entries root = some root' ∧
      (∀ q, ¬ dest <+: q → root'.look q = root.look q) ∧
      ∀ place mode content, (∃ id, root'.get? (dest ++ place) = some (.file id mode content)) ↔
        ∃ id mode', tree.get? place = some (.file id mode' content) ∧ mode = mode' % 0o1000

/-- There is nothing to archive, or a file whose path below the root is not text. -/
inductive Unfit (tree : Node) : Prop
  | empty (h : ∀ place node, tree.get? place = some node → node.isFile = false)
  | nameless (place : List Name) (node : Node) (hg : tree.get? place = some node)
      (hf : node.isFile = true) (hn : Bytes.toText? (joinSlash place) = none)

/-- The deadline struck, or the system refused something and the failure says so. -/
inductive Hindered {α : Type} (o : Outside) (root output : Path) (tree : Node)
    (trace : List (Request × Machine)) : Except Stop α → Prop
  | late : Hindered o root output tree trace (.error .late)
  | refused (text : String) (h : Quotes (answer o) trace text) :
    Hindered o root output tree trace (.error (.failed (.archive output text)))
  | tooDeep (text : String) (h : TooDeep root tree text) :
    Hindered o root output tree trace (.error (.failed (.archive output text)))

variable {o : Outside} {m : Machine} {root output : Path} {place : Place} {es : Entries}
  {tree : Node} {entries : List Zip.Entry} {deadline : Option Nat}

/-- A name of an entry is a relative path of proper names. -/
theorem NameOf.isRelative {entry : Zip.Entry} {place : List Name} (h : NameOf tree entry place) :
    entry.name ≠ "" ∧ (Path.ofString entry.name).isAbsolute = false ∧
      ∀ part ∈ LayerPack.splitSlash (Bytes.ofString entry.name),
        part ≠ [] ∧ part ≠ dot ∧ part ≠ dotdot := by
  have parts := h.splitSlash
  refine ⟨fun he => ?_, ?_, fun part hp => ?_⟩
  · have := h.name
    rw [he] at this
    exact Path.joinSlash_ne_nil h.proper h.some this.symm
  · cases ha : (Path.ofString entry.name).isAbsolute with
    | false => rfl
    | true =>
      obtain ⟨rest, hb⟩ := Path.eq_slash_cons ha
      change Bytes.ofString entry.name = _ at hb
      rw [hb, splitSlash_slash] at parts
      exact ((h.proper [] (parts ▸ List.mem_cons_self)).nonempty rfl).elim
  · have := h.proper part (parts ▸ hp)
    exact ⟨this.nonempty, this.notDot, this.notDotdot⟩

theorem encodes_of_packs (wf : tree.WellFormed) (isDir : tree.isDir = true)
    (packs : Packs tree entries) : Encodes tree entries where
  files := ⟨_, Node.pairwise_regularFiles wf, fun _ _ _ => Node.mem_regularFiles wf, packs.files⟩
  distinct := by
    refine List.pairwise_map.mpr ((entries_before wf isDir packs).imp ?_)
    rintro a b ⟨p, q, hp, hq, before⟩ he
    have := hp.splitSlash
    rw [he, hq.splitSlash] at this
    exact before.1 this.symm
  named entry he := by
    obtain ⟨place, name⟩ := exists_nameOf wf isDir packs he
    exact name.isRelative
  onlyFiles entry he place node hg hname := by
    obtain ⟨place', name⟩ := exists_nameOf wf isDir packs he
    have below : place ≠ [] := by
      rintro rfl
      exact Path.joinSlash_ne_nil name.proper name.some (name.name.symm.trans hname)
    have parts := name.splitSlash
    rw [hname, splitSlash_joinSlash below fun n hn => (wf.properName hg n hn).noSlash] at parts
    obtain ⟨id, mode, -, hfile⟩ := name.file
    cases hg.symm.trans (parts ▸ hfile)
    rfl
  rebuilds root dest next fresh := by
    obtain ⟨root', hextract, extracted⟩ := extract_apart (entries_apart wf isDir packs dest)
      (fun entry he => entries_free wf isDir packs fresh he) next
    exact ⟨root', hextract, fun q hq => look_outside wf isDir packs fresh extracted hq,
      fun place mode content => file_extracted_iff wf isDir packs fresh extracted⟩

/-- The path of a file that has been packed is text. -/
theorem text_of_packs (wf : tree.WellFormed) (packs : Packs tree entries) {place : List Name}
    {node : Node} (hg : tree.get? place = some node) (hf : node.isFile = true) :
    Bytes.toText? (joinSlash place) ≠ none := by
  cases node with
  | dir | link => cases hf
  | file id mode content =>
    have hm := (Node.mem_regularFiles wf).mpr ⟨id, hg⟩
    have hm' : factsOf (place, mode, content) ∈ entries.map facts :=
      packs.files ▸ List.mem_map_of_mem hm
    obtain ⟨entry, -, heq⟩ := List.mem_map.mp hm'
    simp only [factsOf, facts, Prod.mk.injEq] at heq
    rw [← heq.1, Bytes.toText?_ofString]
    exact Option.some_ne_none _

/-- A tree that has been archived has files, and their paths are text. -/
theorem not_unfit (wf : tree.WellFormed) (packs : Packs tree entries) (some : entries ≠ []) :
    ¬ Unfit tree := by
  rintro (h | ⟨place, node, hg, hf, hn⟩)
  · obtain ⟨entry, rest, rfl⟩ := List.exists_cons_of_ne_nil some
    obtain ⟨place, id, mode, -, hg⟩ :=
      (packs.exactly _ _).mp ⟨entry, List.mem_cons_self, rfl, rfl⟩
    cases h place _ hg
  · exact text_of_packs wf packs hg hf hn

section Collected

variable {files : List Path} (wf : (Node.dir es).WellFormed)
  (hroot : m.disk.resolve m.cwd true root = .ok (place, .dir es))
  (collected : Files.Collected m.disk m.cwd root files)
include wf hroot collected

/-- A path that has no name inside an archive is that of a file whose path below the root is not
text. -/
theorem nameless_of_collected {p : Path} {text : String} (hp : p ∈ files)
    (hname : entryName root p = .error text) : ∃ place node, (Node.dir es).get? place = some node ∧
      node.isFile = true ∧ Bytes.toText? (joinSlash place) = none := by
  obtain ⟨_, _, hroot', hdir, -⟩ := collected
  cases hroot.symm.trans hroot'
  obtain rfl := Node.filesBelow_ok (hdir rfl)
  obtain ⟨⟨place, mode, content⟩, hf, rfl⟩ := List.mem_map.mp hp
  obtain ⟨id, hg⟩ := (Node.mem_regularFiles wf).mp hf
  refine ⟨place, _, hg, rfl, entryName_error (wf.properName hg) ?_ hname⟩
  rintro rfl
  cases hg

/-- What the walk and the names can miss is missing in the tree. -/
theorem unfit_of_collected
    (h : files = [] ∨ ∃ text, ∃ p ∈ files, entryName root p = .error text) : Unfit (.dir es) := by
  rcases h with rfl | ⟨text, p, hp, hname⟩
  · obtain ⟨_, _, hroot', hdir, -⟩ := collected
    cases hroot.symm.trans hroot'
    have none := Node.filesBelow_ok (hdir rfl)
    refine .empty fun place node hg => ?_
    cases node with
    | dir | link => rfl
    | file id mode content =>
      have := (Node.mem_regularFiles wf).mpr ⟨id, hg⟩
      rw [List.map_eq_nil_iff.mp none.symm] at this
      cases this
  · obtain ⟨place, node, hg, hf, hn⟩ := nameless_of_collected wf hroot collected hp hname
    exact .nameless place node hg hf hn

end Collected

/-- The entries of an archive of a directory are its files, and there are some. -/
theorem packs_of_archived {summary : Summary} {trace : List (Request × Machine)} {m' : Machine}
    (wf : m.disk.root.WellFormed)
    (hroot : m.disk.resolve m.cwd true root = .ok (place, .dir es))
    (archived : Archived root output m entries summary trace m') :
    Packs (.dir es) entries ∧ entries ≠ [] := by
  obtain ⟨files, d, some, collected, grows, read⟩ := archived.complete
  obtain ⟨place', es', hroot', packs⟩ := packs_of_collected wf collected some grows read
  cases hroot.symm.trans hroot'
  refine ⟨packs, ?_⟩
  rintro rfl
  exact some (List.forall₂_nil_right_iff.mp read)

/-- An archive that is made of a directory encodes its tree. None is made of a tree without files or
with a file whose path is not text, and if the system does its part, one is made of every other. -/
theorem write_encodes (wf : m.disk.root.WellFormed)
    (hroot : m.disk.resolve m.cwd true root = .ok (place, .dir es)) :
    (write root output deadline).Ends (answer o) m fun r trace m' =>
      (∀ summary, r = .ok summary → ∃ entries, Archived root output m entries summary trace m' ∧
        Encodes (.dir es) entries ∧ summary.files = entries.length ∧ 1 ≤ summary.files) ∧
      (Unfit (.dir es) → ∃ stop, r = .error stop) ∧
      (¬ Hindered o root output (.dir es) trace r →
        ((∃ stop, r = .error stop) ↔ Unfit (.dir es))) := by
  have wft : (Node.dir es).WellFormed :=
    wf.get? (p := place) (Disk.lookup_sound (Disk.resolve_ok.mp hroot))
  refine (write_ends.and (write_fails wf hroot)).mono fun r trace m' ⟨archived, failed⟩ => ?_
  have packed : ∀ summary, r = .ok summary → ∃ entries,
      Archived root output m entries summary trace m' ∧ Packs (.dir es) entries ∧ entries ≠ [] := by
    intro summary h
    obtain ⟨entries, archived⟩ := archived summary h
    exact ⟨entries, archived, packs_of_archived wf hroot archived⟩
  have unfit : Unfit (.dir es) → ∃ stop, r = .error stop := by
    intro h
    cases r with
    | error stop => exact ⟨stop, rfl⟩
    | ok summary =>
      obtain ⟨entries, -, packs, some⟩ := packed summary rfl
      exact (not_unfit wft packs some h).elim
  refine ⟨fun summary h => ?_, unfit, fun free => ⟨?_, unfit⟩⟩
  · obtain ⟨entries, archived, packs, some⟩ := packed summary h
    refine ⟨entries, archived, encodes_of_packs wft rfl packs, archived.files, ?_⟩
    rw [archived.files]
    exact List.length_pos_iff.mpr some
  · rintro ⟨_ | _, rfl⟩
    case late => exact (free .late).elim
    obtain ⟨text, rfl, h | h | h | ⟨files, collected, h⟩⟩ := failed _ rfl
    · exact (free (.refused text h)).elim
    · exact (free (.tooDeep text h)).elim
    · exact unfit_of_collected wft hroot h (.inl rfl)
    · exact unfit_of_collected wft hroot collected (.inr ⟨text, h⟩)

/-- A script below a directory. -/
def smallTree : Entries := [
  (Bytes.ofString "bin", .dir [(Bytes.ofString "run", .file 0 0o4755 .empty)])]

set_option maxRecDepth 100000 in
/-- The small tree is archived, and its archive encodes it. -/
theorem small_tree_encoded :
    (Machine.small [("tree", .dir smallTree)]).disk.root.WellFormed ∧
    (Machine.small [("tree", .dir smallTree)]).disk.resolve [] true (.ofString "/tree") =
      .ok ([Bytes.ofString "tree"], .dir smallTree) ∧
    (write (.ofString "/tree") (.ofString "/out.zip") none).Ends (answer (.small []))
      (.small [("tree", .dir smallTree)]) fun r _ _ => ∃ summary entries, r = .ok summary ∧
        summary.files = 1 ∧ entries.length = 1 ∧ Encodes (.dir smallTree) entries := by
  have wf : (Machine.small [("tree", .dir smallTree)]).disk.root.WellFormed := by decide +kernel
  have found : (Machine.small [("tree", .dir smallTree)]).disk.resolve [] true (.ofString "/tree") =
      .ok ([Bytes.ofString "tree"], .dir smallTree) := by decide +kernel
  have counted : (write (.ofString "/tree") (.ofString "/out.zip") none).Ends (answer (.small []))
      (.small [("tree", .dir smallTree)]) fun r _ _ => r.toOption.map (·.files) = some 1 := by
    unfold Ends
    decide +kernel
  refine ⟨wf, found, (counted.and (write_encodes wf found)).mono ?_⟩
  rintro r trace m' ⟨hone, encodes, -⟩
  cases r with
  | error stop => cases hone
  | ok summary =>
    obtain ⟨entries, -, encodes, hcount, -⟩ := encodes summary rfl
    have hone : summary.files = 1 := Option.some.inj hone
    exact ⟨summary, entries, rfl, hone, hcount.symm.trans hone, encodes⟩

end LayerPack.Archive
