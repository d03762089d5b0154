import Mathlib
import LayerPack.Proofs.Archive.Failure
import LayerPack.Proofs.Disk.Decide
import LayerPack.Proofs.Disk.Order
import LayerPack.Proofs.Machine.Finding
import LayerPack.Proofs.Settings.Accepted

/-! The walk over a directory. It goes down through the directories of the tree alone, and what it finds are
the regular files, each of them once. Since the entries of every directory are taken in the order of their
names, the paths come in their component-wise order, and nothing else about the listing of directories shows. -/
namespace LayerPack

open Program Machine

variable {o : Outside} {m : Machine} {root : Path} {tree tree' : Node} {files files' : List Path}
  {place : Place} {es : Entries} {k : Kinship} {asked : Call → Prop}

namespace Path

theorem leComponents_append (front p q : List Component) :
    leComponents (front ++ p) (front ++ q) = leComponents p q := by
  induction front with
  | nil => rfl
  | cons c rest ih => rw [List.cons_append, List.cons_append, leComponents, if_pos rfl, ih]

/-- A path comes strictly before another one in the component-wise order. -/
def Precedes (p q : Path) : Prop := p.le q = true ∧ q.le p = false

theorem precedes_descend {up up' : List Name} (h : Before up up') (hn : ∀ name ∈ up, ProperName name)
    (hn' : ∀ name ∈ up', ProperName name) (root : Path) :
    (root.descend up).Precedes (root.descend up') := by
  rw [Precedes, le, le, components_descend root hn, components_descend root hn', leComponents_append,
    leComponents_append]
  exact ⟨h.2, Bool.eq_false_iff.mpr fun back => h.1 (leComponents_antisymm h.2 back)⟩

end Path

namespace Node

/-- A regular file stands at a place of the tree. -/
def FileAt (tree : Node) (place : List Name) : Prop :=
  ∃ id mode content, tree.get? place = some (.file id mode content)

/-- No directory of the tree has a path that is too long for the system to read it. -/
def Readable (tree : Node) (root : Path) : Prop :=
  ∀ place es, tree.get? place = some (.dir es) → (root.descend place).bytes.length ≤ Disk.maxPath

theorem readable_file (id mode : Nat) (content : ByteArray) : (file id mode content).Readable root :=
  fun place es hg => by cases place <;> cases hg

theorem readable_link (target : Bytes) : (link target).Readable root :=
  fun place es hg => by cases place <;> cases hg

theorem readable_dir (here : root.bytes.length ≤ Disk.maxPath)
    (inner : ∀ e ∈ es, e.2.Readable (root.child e.1)) : (dir es).Readable root := by
  intro place es' hg
  cases place with
  | nil => exact here
  | cons name rest =>
    rw [get?] at hg
    split at hg
    next node hf => exact inner _ (Entries.mem_of_find? hf) rest es' hg
    next => cases hg

theorem find?_of_perm {es es' : Entries} (perm : es.Perm es') (nodup : (es.map (·.1)).Nodup)
    (name : Name) : Entries.find? es name = Entries.find? es' name := by
  have nodup' : (es'.map (·.1)).Nodup := (perm.map _).nodup_iff.mp nodup
  refine Option.ext fun node => ⟨fun h => ?_, fun h => ?_⟩
  · exact Entries.find?_of_mem nodup' (perm.mem_iff.mp (Entries.mem_of_find? h))
  · exact Entries.find?_of_mem nodup (perm.mem_iff.mpr (Entries.mem_of_find? h))

/-- In what order a directory lists its entries does not matter for the files below it. -/
theorem fileAt_of_perm {es es' : Entries} (perm : es.Perm es') (nodup : (es.map (·.1)).Nodup)
    (place : List Name) : (dir es).FileAt place ↔ (dir es').FileAt place := by
  cases place with
  | nil => simp [FileAt, get?]
  | cons name rest => simp only [FileAt, get?, find?_of_perm perm nodup]

/-- These are the files of a tree that stands at a path: the paths of its regular files, each of them once,
in their strict order. Above a file there are only directories. -/
structure Lists (tree : Node) (root : Path) (files : List Path) : Prop where
  each : ∃ places : List (List Name), files = places.map root.descend ∧ places.Nodup ∧
    (∀ place, place ∈ places ↔ tree.FileAt place) ∧
    ∀ place ∈ places, (root.descend place).components = root.components ++ place.map .normal ∧
      ∀ up, up <+: place → up ≠ place → ∃ es, tree.get? up = some (.dir es)
  increasing : files.Pairwise Path.Precedes

theorem files_of_told (walked : tree.filesBelow root = .ok files) :
    files = (tree.told fun _ _ => ()).map fun file => root.descend file.1 := by
  rw [filesBelow_ok walked, told, List.map_map]
  rfl

theorem mem_told_file (wf : tree.WellFormed) : (place, ()) ∈ tree.told (fun _ _ => ()) ↔ tree.FileAt place := by
  simp [mem_told wf, FileAt]

theorem filesBelow_lists (wf : tree.WellFormed) (walked : tree.filesBelow root = .ok files) :
    tree.Lists root files := by
  have listed := filesBelow_ok walked
  have order := pairwise_regularFiles wf
  have there {file : List Name × Nat × ByteArray} (h : file ∈ tree.regularFiles) :
      ∃ id, tree.get? file.1 = some (.file id file.2.1 file.2.2) := (mem_regularFiles wf).mp h
  have proper {file : List Name × Nat × ByteArray} (h : file ∈ tree.regularFiles) :
      ∀ name ∈ file.1, ProperName name := by
    obtain ⟨id, hg⟩ := there h
    exact wf.properName hg
  refine ⟨⟨tree.regularFiles.map (·.1), ?_, ?_, fun place => ⟨?_, ?_⟩, fun place hp => ?_⟩, ?_⟩
  · rw [listed, List.map_map]
    rfl
  · exact List.pairwise_map.mpr (order.imp fun before => before.1)
  · rintro hp
    obtain ⟨file, hf, rfl⟩ := List.mem_map.mp hp
    obtain ⟨id, hg⟩ := there hf
    exact ⟨id, _, _, hg⟩
  · rintro ⟨id, mode, content, hg⟩
    exact List.mem_map.mpr ⟨(place, mode, content), (mem_regularFiles wf).mpr ⟨id, hg⟩, rfl⟩
  · obtain ⟨file, hf, rfl⟩ := List.mem_map.mp hp
    refine ⟨Path.components_descend root (proper hf), fun up above ne => ?_⟩
    obtain ⟨rest, hr⟩ := above
    obtain ⟨id, hg⟩ := there hf
    cases rest with
    | nil => exact (ne (by rw [← hr, List.append_nil])).elim
    | cons name more => exact dir_of_get?_append (hr ▸ hg)
  · rw [listed]
    exact List.pairwise_map.mpr (order.imp_of_mem fun ha hb before =>
      Path.precedes_descend before (proper ha) (proper hb) root)

/-- Trees with regular files at the same places are listed alike. -/
theorem filesBelow_same (wf : tree.WellFormed) (wf' : tree'.WellFormed)
    (walked : tree.filesBelow root = .ok files) (walked' : tree'.filesBelow root = .ok files')
    (same : ∀ place, tree.FileAt place ↔ tree'.FileAt place) : files = files' := by
  rw [files_of_told walked, files_of_told walked', (told_eq_iff wf wf').mpr fun place x => ?_]
  rw [mem_told_file wf, mem_told_file wf', same]

theorem filesBelow_readable (wf : tree.WellFormed) (readable : tree.Readable root) :
    ∃ files, tree.filesBelow root = .ok files := by
  cases walked : tree.filesBelow root with
  | ok files => exact ⟨files, rfl⟩
  | error e =>
    obtain ⟨place, es, hg, long, -⟩ := filesBelow_error wf walked
    exact (Nat.not_lt.mpr (readable place es hg) long).elim

end Node

namespace Files

/-- The walk over the tree that a path leads to. -/
def belowAt (d : Disk) (cwd : Place) (root : Path) : Except Error (List Path) :=
  match d.snapshot cwd root with
  | .error e => .error (walkFailure ⟨root, e⟩)
  | .ok node => (node.filesBelow root).mapError walkFailure

/-- What a walk from a path finds. -/
def collectedAt (d : Disk) (cwd : Place) (root : Path) : Except Error (List Path) :=
  match d.stat cwd false root with
  | .error e => .error (walkFailure ⟨root, e⟩)
  | .ok s =>
    match s.kind with
    | .file => .ok [root]
    | .dir => belowAt d cwd root
    | .link =>
      match d.stat cwd true root with
      | .error e => .error (walkFailure ⟨root, e⟩)
      | .ok s => if s.kind = .dir then belowAt d cwd root else .ok []

theorem finds_collectedAt (steady : o.Steady k asked) (root : Path) :
    (collect root).Finds o k m (collectedAt m.disk m.cwd root) := by
  have below (n : Machine) (hd : n.disk = m.disk) (hc : n.cwd = m.cwd) :
      (collect.below root).Finds o k n (belowAt m.disk m.cwd root) := by
    refine Finds.bind (finds_snapshot steady root) fun l _ _ => ?_
    rw [belowAt, hd, hc]
    cases m.disk.snapshot m.cwd root <;> exact finds_done _
  refine Finds.bind (finds_stat steady false root) fun n hn hd => ?_
  unfold collectedAt
  cases m.disk.stat m.cwd false root with
  | error e => exact finds_done _
  | ok status =>
    dsimp only
    cases status.kind with
    | file => exact finds_done _
    | dir => exact below n hd hn.cwd
    | link =>
      refine Finds.bind (finds_stat steady true root) fun l hl hd' => ?_
      rw [hd, hn.cwd]
      cases m.disk.stat m.cwd true root with
      | error e => exact finds_done _
      | ok status =>
        dsimp only
        split
        · exact below l (hd'.trans hd) (hl.cwd.trans hn.cwd)
        · exact finds_done _

theorem collectedAt_of_dir {d : Disk} {cwd : Place}
    (hroot : d.resolve cwd true root = .ok (place, .dir es)) :
    collectedAt d cwd root = ((Node.dir es).filesBelow root).mapError walkFailure := by
  have below : belowAt d cwd root = ((Node.dir es).filesBelow root).mapError walkFailure := by
    rw [belowAt, Disk.snapshot, hroot]
    rfl
  obtain ⟨⟨dest, node⟩, named⟩ := Disk.exists_resolve hroot
  have status : d.stat cwd false root = .ok node.stat := by
    rw [Disk.stat, named]
    rfl
  rw [collectedAt, status]
  cases node with
  | file id mode content => cases hroot.symm.trans (Disk.resolve_follow named rfl)
  | dir inner => exact below
  | link target =>
    have followed : d.stat cwd true root = .ok (Node.dir es).stat := by
      rw [Disk.stat, hroot]
      rfl
    dsimp only [Node.stat]
    rw [followed]
    exact below

/-- Where the system refuses nothing, a walk from a path to a directory is the walk over its tree. -/
theorem finds_collect (steady : o.Steady k asked)
    (hroot : m.disk.resolve m.cwd true root = .ok (place, .dir es)) :
    (collect root).Finds o k m (((Node.dir es).filesBelow root).mapError walkFailure) :=
  collectedAt_of_dir hroot ▸ finds_collectedAt steady root

theorem filesBelow_of_collected
    (hroot : m.disk.resolve m.cwd true root = .ok (place, .dir es))
    (found : Collected m.disk m.cwd root files) : (Node.dir es).filesBelow root = .ok files := by
  obtain ⟨place', node, hnode, walked, -⟩ := found
  cases hroot.symm.trans hnode
  exact walked rfl

/-- A walk over a directory whose tree can be read ends with a list of files, unless a request is refused. It
lists the regular files of the tree in their strict order, each of them once, and it goes down through
directories alone. Any other walk over a tree with files at the same places, in whatever order its
directories are listed, has the same list. -/
theorem collect_walks (wf : m.disk.root.WellFormed)
    (hroot : m.disk.resolve m.cwd true root = .ok (place, .dir es)) :
    (collect root).Ends (answer o) m fun r trace m' => Same m m' ∧
      ((Node.dir es).Readable root →
        ((∀ n, o.fault n = none) ∨ ∀ e, ¬ Failed (answer o) trace e) → ∃ files, r = .ok files) ∧
      ∀ files, r = .ok files → (Node.dir es).Lists root files ∧
        ∀ (o' : Outside) (n : Machine) (place' : Place) (es' : Entries), n.disk.root.WellFormed →
          n.disk.resolve n.cwd true root = .ok (place', .dir es') →
          (∀ place, (Node.dir es).FileAt place ↔ (Node.dir es').FileAt place) →
          (collect root).Ends (answer o') n fun r' _ _ => ∀ files', r' = .ok files' → files' = files := by
  have form : (Node.dir es).WellFormed :=
    wf.get? (p := place) (Disk.lookup_sound (Disk.resolve_ok.mp hroot))
  have sound : (collect root).Ends (answer o) m fun r _ _ => (∀ n, o.fault n = none) →
      r = ((Node.dir es).filesBelow root).mapError walkFailure := by
    by_cases never : ∀ n, o.fault n = none
    · exact (finds_collect (Outside.steady_of_sound never) hroot).mono fun _ _ _ found _ => found.1
    · exact Ends.mono (Q := fun _ _ _ => True) trivial fun _ _ _ _ h => (never h).elim
  refine ((collect_ends root).and ((collect_fails wf hroot).and sound)).mono ?_
  rintro r trace m' ⟨⟨same, collected⟩, fails, found⟩
  refine ⟨same, fun readable granted => ?_, fun files hr => ?_⟩
  · rcases granted with never | granted
    · obtain ⟨files, walked⟩ := Node.filesBelow_readable form readable
      exact ⟨files, by rw [found never, walked]; rfl⟩
    · cases r with
      | ok files => exact ⟨files, rfl⟩
      | error cause =>
        rcases fails cause rfl with ⟨e, -, failed, -⟩ | ⟨place, inner, -, hg, long, -⟩
        · exact (granted e failed).elim
        · exact (Nat.not_lt.mpr (readable place inner hg) long).elim
  · have walked := filesBelow_of_collected hroot (collected files hr)
    refine ⟨Node.filesBelow_lists form walked, fun o' n place' es' wf' hroot' sameFiles => ?_⟩
    have form' : (Node.dir es').WellFormed :=
      wf'.get? (p := place') (Disk.lookup_sound (Disk.resolve_ok.mp hroot'))
    refine (collect_ends root).mono fun r' _ _ ⟨_, collected'⟩ files' hr' => ?_
    have walked' := filesBelow_of_collected hroot' (collected' files' hr')
    exact (Node.filesBelow_same form form' walked walked' sameFiles).symm

/-- A small tree with an empty directory, a link to the tree itself and one that leads nowhere. -/
def smallWood : Entries := [
  (Bytes.ofString "a.py", .file 1 0o644 .empty),
  (Bytes.ofString "loop", .link (Bytes.ofString "loop")),
  (Bytes.ofString "empty", .dir []),
  (Bytes.ofString "a", .dir [
    (Bytes.ofString "up", .link (Bytes.ofString "/t")), (Bytes.ofString "b", .file 2 0o644 .empty)])]

/-- A file below a directory comes before one whose name goes on where the name of the directory ends, other
than in the order of the bytes of the paths. -/
theorem small_wood_walked :
    let m := Machine.small [("t", .dir smallWood)]
    let n := Machine.small [("t", .dir smallWood.reverse)]
    let files := [Path.ofString "/t/a/b", .ofString "/t/a.py"]
    (Node.dir smallWood).Lists (.ofString "/t") files ∧
    Bytes.le (Bytes.ofString "/t/a.py") (Bytes.ofString "/t/a/b") = true ∧
    ∀ l ∈ [m, n], (collect (.ofString "/t")).Ends (answer (.small [])) l fun r _ _ => r = .ok files := by
  intro m n files
  have wf : m.disk.root.WellFormed := by decide +kernel
  have found : m.disk.resolve m.cwd true (.ofString "/t") =
      .ok ([Bytes.ofString "t"], .dir smallWood) := by decide +kernel
  have found' : n.disk.resolve n.cwd true (.ofString "/t") =
      .ok ([Bytes.ofString "t"], .dir smallWood.reverse) := by decide +kernel
  have readable : (Node.dir smallWood.reverse).Readable (.ofString "/t") := by
    refine Node.readable_dir (by decide) ?_
    simp only [smallWood, List.mem_reverse, List.forall_mem_cons, Node.readable_file, Node.readable_link,
      true_and]
    refine ⟨Node.readable_dir (by decide) (by simp), Node.readable_dir (by decide) ?_, by simp⟩
    simp [Node.readable_file, Node.readable_link]
  have same := Node.fileAt_of_perm smallWood.reverse_perm.symm (by decide +kernel)
  have walked : (collect (.ofString "/t")).run (answer (.small [])) m =
      (.ok files, { m with ticks := 2 }) := by cbv
  have ends := collect_walks (o := .small []) wf found
  rw [Ends, walked] at ends
  obtain ⟨lists, others⟩ := ends.2.2 files rfl
  have wf' : n.disk.root.WellFormed := by decide +kernel
  have ends' : (collect (.ofString "/t")).Ends (answer (.small [])) n fun r _ _ => r = .ok files := by
    refine ((collect_walks wf' found').and (others (.small []) n _ _ wf' found' same)).mono ?_
    rintro _ _ _ ⟨⟨-, reads, -⟩, same⟩
    obtain ⟨files', rfl⟩ := reads readable (.inl fun _ => rfl)
    rw [same files' rfl]
  refine ⟨lists, by decide, List.forall_mem_cons.mpr ⟨?_, List.forall_mem_singleton.mpr ends'⟩⟩
  rw [Ends, walked]

end Files

end LayerPack
