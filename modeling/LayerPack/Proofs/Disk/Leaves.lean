import LayerPack.Disk.Walk
import LayerPack.Proofs.Disk.Tree

/-! The regular files of a tree. They are what stands in the tree and is a file, each with its place,
and the walk over a directory finds them in the same order. -/
namespace LayerPack

/-- The path of a place below a path. -/
def Path.descend (p : Path) (place : Place) : Path := place.foldl Path.child p

namespace Node

variable {node leaf : Node} {es : Entries} {place : List Name}

theorem isDir_iff_kind : node.isDir = true ↔ node.stat.kind = .dir := by
  cases node <;> simp [isDir, stat]

theorem arrangeAll_eq (es : Entries) : arrangeAll es = es.map fun e => (e.1, e.2.arrange) := by
  induction es with
  | nil => rfl
  | cons e rest ih => rw [arrangeAll, ih, List.map_cons]

theorem leavesAll_eq (es : Entries) :
    leavesAll es = es.flatMap fun e => e.2.leaves.map fun l => (e.1 :: l.1, l.2) := by
  induction es with
  | nil => rfl
  | cons e rest ih => rw [leavesAll, ih, List.flatMap_cons]

theorem nil_notMem_leaves_dir : ([], leaf) ∉ (dir es).leaves := by
  simp [leaves, leavesAll_eq]

theorem mem_leaves_dir {name : Name} : (name :: place, leaf) ∈ (dir es).leaves ↔
    ∃ inner, (name, inner) ∈ es ∧ (place, leaf) ∈ inner.leaves := by
  simp only [leaves, leavesAll_eq, List.mem_flatMap, List.mem_map, Prod.mk.injEq, List.cons.injEq]
  constructor
  · rintro ⟨⟨n, inner⟩, he, ⟨p, l⟩, hl, ⟨rfl, rfl⟩, rfl⟩
    exact ⟨inner, he, hl⟩
  · rintro ⟨inner, he, hl⟩
    exact ⟨(name, inner), he, (place, leaf), hl, ⟨rfl, rfl⟩, rfl⟩

theorem mem_leaves_of_not_dir (h : node.isDir = false) :
    (place, leaf) ∈ node.leaves ↔ place = [] ∧ leaf = node := by
  cases node with
  | dir => cases h
  | file | link => simp [leaves]

/-- Arranging a tree moves no leaf. -/
theorem mem_leaves_arrange : (place, leaf) ∈ node.arrange.leaves ↔ (place, leaf) ∈ node.leaves := by
  induction place generalizing node with
  | nil =>
    cases node with
    | file | link => rfl
    | dir es => simp [arrange, nil_notMem_leaves_dir]
  | cons name rest ih =>
    cases node with
    | file | link => rfl
    | dir es =>
      simp only [arrange, mem_leaves_dir, List.mem_mergeSort, arrangeAll_eq, List.mem_map,
        Prod.mk.injEq]
      constructor
      · rintro ⟨_, ⟨⟨n, inner⟩, he, rfl, rfl⟩, hl⟩
        exact ⟨inner, he, ih.mp hl⟩
      · rintro ⟨inner, he, hl⟩
        exact ⟨inner.arrange, ⟨(name, inner), he, rfl, rfl⟩, ih.mpr hl⟩

/-- The leaves are what stands in the tree and is no directory. -/
theorem mem_leaves (wf : node.WellFormed) :
    (place, leaf) ∈ node.leaves ↔ node.get? place = some leaf ∧ leaf.isDir = false := by
  induction place generalizing node with
  | nil =>
    cases node with
    | dir es =>
      refine iff_of_false nil_notMem_leaves_dir ?_
      rintro ⟨h, hd⟩
      cases h
      cases hd
    | file | link =>
      rw [mem_leaves_of_not_dir rfl, get?]
      constructor
      · rintro ⟨-, rfl⟩
        exact ⟨rfl, rfl⟩
      · rintro ⟨h, -⟩
        cases h
        exact ⟨rfl, rfl⟩
  | cons name rest ih =>
    cases wf with
    | file | link => simp [leaves, get?]
    | @dir es nodup proper wf =>
      rw [mem_leaves_dir, get?]
      constructor
      · rintro ⟨inner, he, hl⟩
        rw [Entries.find?_of_mem nodup he]
        exact (ih (wf _ he)).mp hl
      · cases hf : Entries.find? es name with
        | none => simp
        | some inner =>
          have he := Entries.mem_of_find? hf
          exact fun h => ⟨inner, he, (ih (wf _ he)).mpr h⟩

/-- What a leaf is if it is a regular file. -/
def asFile : List Name × Node → Option (List Name × Nat × ByteArray)
  | (place, file _ mode content) => some (place, mode, content)
  | _ => none

theorem asFile_eq_some {l : List Name × Node} {mode : Nat} {content : ByteArray} :
    asFile l = some (place, mode, content) ↔ ∃ id, l = (place, file id mode content) := by
  obtain ⟨place', node⟩ := l
  cases node <;> simp [asFile]

theorem regularFiles_eq (node : Node) : node.regularFiles = node.arrange.leaves.filterMap asFile := by
  refine congrArg (List.filterMap · _) (funext fun ⟨place, leaf⟩ => ?_)
  cases leaf <;> rfl

/-- The regular files are the files that stand in the tree. -/
theorem mem_regularFiles (wf : node.WellFormed) {mode : Nat} {content : ByteArray} :
    (place, mode, content) ∈ node.regularFiles ↔ ∃ id, node.get? place = some (file id mode content) := by
  rw [regularFiles_eq, List.mem_filterMap]
  constructor
  · rintro ⟨⟨p, leaf⟩, hl, hf⟩
    obtain ⟨id, he⟩ := asFile_eq_some.mp hf
    cases he
    exact ⟨id, ((mem_leaves wf).mp (mem_leaves_arrange.mp hl)).1⟩
  · rintro ⟨id, hg⟩
    exact ⟨_, mem_leaves_arrange.mpr ((mem_leaves wf).mpr ⟨hg, rfl⟩), rfl⟩

mutual
/-- The walk over a tree finds its files. -/
theorem filesAt_ok {p : Path} {files : List Path} :
    (node : Node) → node.filesAt p = .ok files →
      files = (node.leaves.filterMap asFile).map fun f => p.descend f.1
  | file .., h => by
    cases h
    rfl
  | link _, h => by
    cases h
    rfl
  | dir es, h => by
    rw [filesAt] at h
    split at h
    · cases h
    · exact filesAtAll_ok es h

theorem filesAtAll_ok {p : Path} {files : List Path} :
    (es : List (Name × Node)) → filesAtAll p es = .ok files →
      files = ((leavesAll es).filterMap asFile).map fun f => p.descend f.1
  | [], h => by
    cases h
    rfl
  | (name, node) :: rest, h => by
    rw [filesAtAll] at h
    cases hn : node.filesAt (p.child name) with
    | error e =>
      rw [hn] at h
      cases h
    | ok here =>
      cases hr : filesAtAll p rest with
      | error e =>
        rw [hn, hr] at h
        cases h
      | ok others =>
        rw [hn, hr] at h
        cases h
        have first : (node.leaves.filterMap asFile).map (fun f => (p.child name).descend f.1) =
            ((node.leaves.map fun l => (name :: l.1, l.2)).filterMap asFile).map
              fun f => p.descend f.1 := by
          rw [List.filterMap_map, List.map_filterMap, List.map_filterMap]
          refine congrArg (List.filterMap · node.leaves) (funext fun ⟨place, leaf⟩ => ?_)
          cases leaf <;> rfl
        rw [filesAt_ok node hn, filesAtAll_ok rest hr, leavesAll, List.filterMap_append,
          List.map_append]
        exact congrArg (· ++ _) first
end

/-- The walk below a path finds the regular files of the tree. -/
theorem filesBelow_ok {p : Path} {files : List Path} (h : node.filesBelow p = .ok files) :
    files = node.regularFiles.map fun f => p.descend f.1 := by
  rw [regularFiles_eq]
  exact filesAt_ok node.arrange h

theorem filesAtAll_error {p : Path} {e : WalkError} (h : filesAtAll p es = .error e) :
    ∃ name inner, (name, inner) ∈ es ∧ inner.filesAt (p.child name) = .error e := by
  induction es with
  | nil => cases h
  | cons entry rest ih =>
    obtain ⟨name, inner⟩ := entry
    rw [filesAtAll] at h
    cases hn : inner.filesAt (p.child name) with
    | error e' =>
      rw [hn] at h
      cases h
      exact ⟨name, inner, List.mem_cons_self, hn⟩
    | ok here =>
      rw [hn] at h
      cases hr : filesAtAll p rest with
      | ok => simp [hr, Except.map] at h
      | error e' =>
        rw [hr] at h
        cases h
        obtain ⟨name', inner', hm, he⟩ := ih hr
        exact ⟨name', inner', List.mem_cons_of_mem _ hm, he⟩

/-- The walk fails only at a directory of the tree whose path is too long. -/
theorem filesBelow_error {p : Path} {e : WalkError} (wf : node.WellFormed)
    (h : node.filesBelow p = .error e) : ∃ place es, node.get? place = some (.dir es) ∧
      Disk.maxPath < (p.descend place).bytes.length ∧ e = ⟨p.descend place, .nameTooLong⟩ := by
  rw [filesBelow] at h
  induction wf generalizing p with
  | file | link => cases h
  | @dir es nodup proper wf ih =>
    rw [arrange, filesAt] at h
    split at h
    next long =>
      cases h
      exact ⟨[], es, rfl, long, rfl⟩
    next =>
      obtain ⟨name, inner', hm, he⟩ := filesAtAll_error h
      rw [List.mem_mergeSort, arrangeAll_eq] at hm
      obtain ⟨⟨name, inner⟩, hin, ⟨⟩⟩ := List.mem_map.mp hm
      obtain ⟨place, es', hg, long, rfl⟩ := ih _ hin he
      refine ⟨name :: place, es', ?_, long, rfl⟩
      rw [get?, Entries.find?_of_mem nodup hin]
      exact hg

end Node

end LayerPack
