import LayerPack.Proofs.Archive.Contents
import LayerPack.Proofs.Host.Agreement

/-! What an archive is made of, on twins: the same files, and the same digest of them. The entries are
a value that depends on the disk alone. It is the same on disks that are alike, and it stays the same
when something is added to the disk while the files are read. -/
namespace LayerPack

open Program Machine

namespace Disk

variable {root : Node} {place : Place} {more names : List Name} {id mode : Nat} {content : ByteArray}

/-- Straight down to a file a walk can only fail at a name that is too long. -/
theorem walk_down (follow : Bool) (hm : ∀ name ∈ more, ProperName name)
    (hg : root.get? (place ++ more) = some (.file id mode content)) :
    walk root follow place more = if ∃ name ∈ more, maxName < name.length then .failed .nameTooLong
      else .arrived (.found (place ++ more) (.file id mode content)) := by
  induction more generalizing place with
  | nil =>
    rw [List.append_nil] at hg
    simp [walk_nil, hg]
  | cons name rest ih =>
    obtain ⟨es, he⟩ := Node.dir_of_get?_append hg
    have proper := hm name List.mem_cons_self
    rw [walk_proper he proper]
    by_cases hl : maxName < name.length
    · rw [if_pos hl, if_pos ⟨name, List.mem_cons_self, hl⟩]
    have inner : root.get? (place ++ [name] ++ rest) = some (.file id mode content) := by
      rwa [List.append_assoc]
    have again := ih (fun n hn => hm n (List.mem_cons_of_mem _ hn)) inner
    rw [Node.get?_append] at inner
    have step : walk root follow (place ++ [name]) rest =
        if ∃ n ∈ name :: rest, maxName < n.length then .failed .nameTooLong
        else .arrived (.found (place ++ name :: rest) (.file id mode content)) := by
      rw [again]
      simp [hl]
    rw [if_neg hl, ← step]
    cases hn : root.get? (place ++ [name]) with
    | none => simp [hn] at inner
    | some node =>
      cases node with
      | file | dir => rfl
      | link target =>
        rw [hn] at inner
        cases rest <;> cases inner

variable {d d' : Disk} {cwd : Place}

/-- A file of a directory is looked up with the same outcome after something has been added. -/
theorem Grows.lookup_below {es : Entries} (grows : d.Grows d') (h : ∀ name ∈ names, ProperName name)
    (hne : names ≠ []) (hroot : d.resolve cwd true (.ofNames names) = .ok (place, .dir es))
    (hm : ∀ name ∈ more, ProperName name)
    (hg : d.get? (place ++ more) = some (.file id mode content)) (follow : Bool) :
    d'.lookup cwd follow (.ofNames (names ++ more)) = d.lookup cwd follow (.ofNames (names ++ more)) := by
  have hall : ∀ name ∈ names ++ more, ProperName name := fun name hn =>
    (List.mem_append.mp hn).elim (h name) (hm name)
  have chased {d : Disk} {es : Entries}
      (hroot : d.resolve cwd true (.ofNames names) = .ok (place, .dir es))
      (hg : d.get? (place ++ more) = some (.file id mode content)) :
      chase d.root follow maxLinks [] (names ++ more) =
        if ∃ name ∈ more, maxName < name.length then .error .nameTooLong
        else .ok (.found (place ++ more) (.file id mode content)) := by
    have hdir := chase_slash (chase_of_lookup h hne (resolve_ok.mp hroot))
    obtain ⟨hplace, left, hleft⟩ := chase_append hdir
    have hmore : more ≠ [] := by
      rintro rfl
      rw [List.append_nil] at hg
      cases hplace.symm.trans hg
    rw [hleft follow more hmore]
    unfold chase
    rw [walk_down follow hm hg]
    by_cases hl : ∃ name ∈ more, maxName < name.length
    · rw [if_pos hl, if_pos hl]
    · rw [if_neg hl, if_neg hl]
  obtain ⟨es', hroot'⟩ := resolve_keeps grows.keepsWays hroot
  unfold lookup
  rw [partsOf_ofNames hall (by simp [hne]), startOf_absolute (Path.isAbsolute_ofNames _),
    chased hroot hg, chased hroot' (grows.file hg)]

end Disk

namespace Archive

variable {k : Kinship} {asked : Call → Prop} {o : Outside} {d d' : Disk} {cwd : Place}
  {root : Path} {files : List Path}

/-- What is read of one file. -/
def entryAt (root : Path) (d : Disk) (cwd : Place) (p : Path) : Except String Zip.Entry := do
  let name ← entryName root p
  let status ← (d.stat cwd true p).mapError (failing ("reading " ++ p.display))
  let file ← (d.openRead cwd p).mapError (failing ("opening " ++ p.display))
  let content ← (Files.contentOf file).mapError (failing ("reading " ++ p.display))
  return ⟨name, status.mode % 0o1000, content⟩

/-- What is read of several files, one after the other. -/
def entriesAt (root : Path) (d : Disk) (cwd : Place) (files : List Path) :
    Except String (List Zip.Entry) := files.mapM (entryAt root d cwd)

theorem finds_readEntry (steady : o.Steady k asked) (root p : Path) (m : Machine) :
    (readEntry root p).Finds o k m (entryAt root m.disk m.cwd p) := by
  unfold readEntry entryAt
  cases entryName root p with
  | error reason => exact finds_done _
  | ok name =>
    refine Finds.bind (finds_stat steady true p) fun n lapsed disk => ?_
    cases m.disk.stat m.cwd true p with
    | error e => exact finds_done _
    | ok status =>
      refine Finds.bind (finds_openRead steady p) fun n' lapsed' disk' => ?_
      rw [disk, lapsed.cwd]
      cases m.disk.openRead m.cwd p with
      | error e => exact finds_done _
      | ok file =>
        refine Finds.bind (Files.finds_readAll steady copyBuffer file n') fun _ _ _ => ?_
        change Finds _ _ _ _ (do
          let content ← (Files.contentOf file).mapError (failing ("reading " ++ p.display))
          return ⟨name, status.mode % 0o1000, content⟩ : Except String Zip.Entry)
        cases Files.contentOf file <;> exact finds_done _

theorem finds_readEntries (steady : o.Steady k asked) (root : Path) (files : List Path)
    (m : Machine) : (readEntries root files).Finds o k m (entriesAt root m.disk m.cwd files) := by
  induction files generalizing m with
  | nil => exact finds_done _
  | cons p rest ih =>
    unfold readEntries entriesAt
    rw [List.mapM_cons]
    refine Finds.bind (finds_readEntry steady root p m) fun n lapsed disk => ?_
    cases entryAt root m.disk m.cwd p with
    | error reason => exact finds_done _
    | ok entry =>
      have again := ih n
      rw [disk, lapsed.cwd] at again
      refine Finds.bind again fun _ _ _ => ?_
      unfold entriesAt
      cases rest.mapM (entryAt root m.disk m.cwd) <;> exact finds_done _

theorem entriesAt_alike (h : d.Alike d') (root : Path) (cwd : Place) (files : List Path) :
    entriesAt root d cwd files = entriesAt root d' cwd files := by
  unfold entriesAt entryAt
  simp only [h.stat, h.openRead]

theorem entryName_self (p : Path) :
    entryName p p = .error (p.display ++ " has no name inside the archive") := by
  have below : Path.below? p p = some [] := by simp [Path.below?]
  rw [entryName, below]
  rfl

theorem mapM_congr {α β ε : Type} {f g : α → Except ε β} {l : List α} (h : ∀ a ∈ l, f a = g a) :
    l.mapM f = l.mapM g := by
  induction l with
  | nil => rfl
  | cons a rest ih =>
    rw [List.mapM_cons, List.mapM_cons, h a List.mem_cons_self,
      ih fun b hb => h b (List.mem_cons_of_mem _ hb)]

/-- The collected files are read with the same outcome after something has been added. -/
theorem entriesAt_grown {names : List Name} (h : ∀ name ∈ names, ProperName name)
    (hne : names ≠ []) (wf : d.root.WellFormed)
    (collected : Files.Collected d cwd (.ofNames names) files) (grows : d.Grows d') :
    entriesAt (.ofNames names) d' cwd files = entriesAt (.ofNames names) d cwd files := by
  obtain ⟨place, node, hroot, hdir, hother⟩ := collected
  refine mapM_congr fun p hp => ?_
  unfold entryAt
  cases node with
  | file | link =>
    rcases hother rfl with rfl | rfl
    · rw [List.mem_singleton.mp hp, entryName_self]
      rfl
    · cases hp
  | dir es =>
    obtain rfl := Node.filesBelow_ok (hdir rfl)
    obtain ⟨⟨more, mode, content⟩, hf, rfl⟩ := List.mem_map.mp hp
    have hplace : d.get? place = some (.dir es) := Disk.lookup_sound (Disk.resolve_ok.mp hroot)
    have wft : (Node.dir es).WellFormed := wf.get? hplace
    obtain ⟨id, hg⟩ := (Node.mem_regularFiles wft).mp hf
    have hm := wft.properName hg
    have hfile : d.get? (place ++ more) = some (.file id mode content) := by
      rw [Disk.get?, Node.get?_append]
      change (d.get? place).bind _ = _
      rw [hplace]
      exact hg
    have same := grows.lookup_below h hne hroot hm hfile true
    rw [Path.descend_ofNames h hne hm]
    unfold Disk.stat Disk.openRead Disk.resolve
    rw [same]

section

variable (steady : o.Steady k asked)

include steady

theorem agrees_readForHash (p : Path) : (readForHash p).Agrees (answer o) Drawn (Twin k) := by
  refine (agrees_openRead steady p).bind fun r => ?_
  cases r with
  | error e => exact agrees_done _
  | ok file =>
    exact (Files.agrees_readAll steady hashBuffer file).bind fun r => by
      cases r <;> exact agrees_done _

theorem agrees_recordsOf (root : Path) (files : List Path) :
    (recordsOf root files).Agrees (answer o) Drawn (Twin k) k.Due := by
  induction files with
  | nil => exact Work.agrees_pure _
  | cons p rest ih =>
    exact (Work.agrees_ofExcept _).bind fun name =>
      ((agrees_readForHash steady p).await (prompt steady)).bind fun content =>
      (Work.agrees_ofExcept content).bind fun _ => ih.bind fun _ => Work.agrees_pure _

theorem agrees_treeDigest (root : Path) :
    (treeDigest root).Agrees (answer o) Drawn (Twin k) k.Due :=
  ((Files.agrees_collect steady root).await (prompt steady)).bind fun files =>
    (Work.agrees_ofExcept files).bind fun files =>
    (agrees_recordsOf steady root files).bind fun _ => Work.agrees_pure _

theorem agrees_prepare (root output : Path) :
    (prepare root output).Agrees (answer o) Drawn (Twin k) k.Due := by
  have parent : (makeParent output).Agrees (answer o) Drawn (Twin k) k.Due := by
    unfold makeParent
    split
    · exact Work.agrees_pure _
    · exact ((Files.agrees_makeDirs steady _).await (prompt steady)).bind fun _ =>
        Work.agrees_ofExcept _
  exact (Work.agrees_log steady _ _).bind fun _ =>
    ((Files.agrees_collect steady root).await (prompt steady)).bind fun _ =>
    (Work.agrees_ofExcept _).bind fun _ => (Work.agrees_failIf _ _).bind fun _ =>
    parent.bind fun _ => Work.agrees_pure _

end

end Archive

end LayerPack
