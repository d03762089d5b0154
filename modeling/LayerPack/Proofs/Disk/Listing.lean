import Mathlib.Data.List.Nodup
import LayerPack.Proofs.Disk.Alike
import LayerPack.Proofs.Disk.Decide
import LayerPack.Proofs.Disk.Leaves
import LayerPack.Proofs.Text.Order

/-! What is in alike directories. Their entries may be listed in another order, but put in the order
of their names they are the same, and so are the files that a walk finds below them. -/
namespace LayerPack

namespace Node

variable {a b node node' : Node} {es es' : Entries} {p : Path}

mutual
/-- The same tree with a zero for the number of every file. -/
def unnumbered : Node → Node
  | file _ mode content => file 0 mode content
  | link target => link target
  | dir es => dir (unnumberedAll es)

def unnumberedAll : List (Name × Node) → List (Name × Node)
  | [] => []
  | (name, node) :: rest => (name, node.unnumbered) :: unnumberedAll rest
end

mutual
/-- A walk over a tree does not ask for the numbers. -/
theorem filesAt_unnumbered (p : Path) : (node : Node) → node.unnumbered.filesAt p = node.filesAt p
  | file .. => rfl
  | link _ => rfl
  | dir es => by
    rw [unnumbered, filesAt, filesAt, filesAtAll_unnumbered p es]

theorem filesAtAll_unnumbered (p : Path) :
    (es : List (Name × Node)) → filesAtAll p (unnumberedAll es) = filesAtAll p es
  | [] => rfl
  | (name, node) :: rest => by
    rw [unnumberedAll, filesAtAll, filesAtAll, filesAt_unnumbered, filesAtAll_unnumbered p rest]
end

theorem unnumberedAll_eq (es : Entries) :
    unnumberedAll es = es.map fun e => (e.1, e.2.unnumbered) := by
  induction es with
  | nil => rfl
  | cons e rest ih => rw [unnumberedAll, ih, List.map_cons]

/-- What is in a tree is told of the tree. -/
theorem alike_below (h : a.Alike b) {p : Place} (hp : a.get? p = some node) :
    ∃ node', b.get? p = some node' ∧ node.Alike node' := by
  cases hp' : b.get? p with
  | none => simp [missing_of_view (h p).symm hp'] at hp
  | some node' =>
    refine ⟨node', rfl, fun q => ?_⟩
    have same := h (p ++ q)
    simpa [view, get?_append, hp, hp'] using same

theorem alike_entry (h : (dir es).Alike (dir es')) {name : Name}
    (hn : Entries.find? es name = some node) :
    ∃ node', Entries.find? es' name = some node' ∧ node.Alike node' := by
  have hp : (dir es).get? [name] = some node := by simp [get?, hn]
  obtain ⟨node', hp', alike⟩ := alike_below h hp
  refine ⟨node', ?_, alike⟩
  cases hf : Entries.find? es' name with
  | none => simp [get?, hf] at hp'
  | some inner => simpa [get?, hf] using hp'

/-- Directories of which the same is told have the same names in them. -/
theorem names_perm (h : (dir es).Alike (dir es')) (nodup : (es.map (·.1)).Nodup)
    (nodup' : (es'.map (·.1)).Nodup) : (es.map (·.1)).Perm (es'.map (·.1)) := by
  have within {es es' : Entries} (h : (dir es).Alike (dir es')) (nodup : (es.map (·.1)).Nodup)
      {name : Name} (hn : name ∈ es.map (·.1)) : name ∈ es'.map (·.1) := by
    obtain ⟨e, he, rfl⟩ := List.mem_map.mp hn
    obtain ⟨node', hf, -⟩ := alike_entry h (Entries.find?_of_mem nodup he)
    exact List.mem_map.mpr ⟨_, Entries.mem_of_find? hf, rfl⟩
  exact (List.perm_ext_iff_of_nodup nodup nodup').mpr fun name =>
    ⟨within h nodup, within h.symm nodup'⟩

/-- An entry with its part of the tree arranged and without numbers. -/
def listed (e : Name × Node) : Name × Node := (e.1, e.2.arrange.unnumbered)

theorem arrange_dir (es : Entries) : (dir es).arrange.unnumbered =
    dir ((es.map listed).mergeSort fun a b => Bytes.le a.1 b.1) := by
  have sorted := List.map_mergeSort (f := fun e : Name × Node => (e.1, e.2.unnumbered))
    (l := es.map fun e => (e.1, e.2.arrange)) (r := fun a b => Bytes.le a.1 b.1)
    (s := fun a b => Bytes.le a.1 b.1) fun _ _ _ _ => rfl
  rw [arrange, unnumbered, unnumberedAll_eq, arrangeAll_eq, sorted, List.map_map]
  rfl

/-- Arranged and without numbers, trees of which the same is told are the same. -/
theorem arrange_of_alike (h : a.Alike b) (wf : a.WellFormed) (wf' : b.WellFormed) :
    a.arrange.unnumbered = b.arrange.unnumbered := by
  induction wf generalizing b with
  | file id mode content =>
    obtain ⟨id', hb⟩ := file_of_view (h []) rfl
    obtain rfl := Option.some.inj hb
    simp [arrange, unnumbered]
  | link target =>
    have hb := link_of_view (h []) rfl
    obtain rfl := Option.some.inj hb
    rfl
  | @dir es nodup proper inner ih =>
    obtain ⟨es', hb⟩ := dir_of_view (h []) rfl
    obtain rfl := Option.some.inj hb
    obtain ⟨nodup', -, inner'⟩ := wellFormed_dir.mp wf'
    have same {e e' : Name × Node} (he : e ∈ es) (he' : e' ∈ es') (hn : e.1 = e'.1) :
        listed e = listed e' := by
      obtain ⟨node', hf, alike⟩ := alike_entry h (Entries.find?_of_mem nodup he)
      have : node' = e'.2 := by
        rw [hn, Entries.find?_of_mem nodup' he'] at hf
        exact (Option.some.inj hf).symm
      rw [listed, listed, hn, ih e he (this ▸ alike) (inner' e' he')]
    have keys (es : Entries) : (es.map listed).map (·.1) = es.map (·.1) := by
      rw [List.map_map]
      rfl
    have distinct : (es.map listed).Nodup := .of_map (·.1) ((keys es).symm ▸ nodup)
    have distinct' : (es'.map listed).Nodup := .of_map (·.1) ((keys es').symm ▸ nodup')
    have perm : (es.map listed).Perm (es'.map listed) := by
      refine (List.perm_ext_iff_of_nodup distinct distinct').mpr fun x => ?_
      have names := names_perm h nodup nodup'
      constructor
      · intro hx
        obtain ⟨e, he, rfl⟩ := List.mem_map.mp hx
        obtain ⟨e', he', hn⟩ := List.mem_map.mp (names.subset (List.mem_map_of_mem he))
        exact List.mem_map.mpr ⟨e', he', (same he he' hn.symm).symm⟩
      · intro hx
        obtain ⟨e', he', rfl⟩ := List.mem_map.mp hx
        obtain ⟨e, he, hn⟩ := List.mem_map.mp (names.symm.subset (List.mem_map_of_mem he'))
        exact List.mem_map.mpr ⟨e, he, same he he' hn⟩
    rw [arrange_dir, arrange_dir, mergeSort_of_perm perm]
    intro x hx y hy hxy
    exact List.inj_on_of_nodup_map ((keys es).symm ▸ nodup) hx hy hxy

/-- Two copies of what is the same tree as far as it can be told. -/
structure Copies (a b : Node) : Prop where
  alike : a.Alike b
  form : a.WellFormed
  form' : b.WellFormed

/-- A walk finds the same files below both copies. -/
theorem Copies.filesBelow (h : a.Copies b) (p : Path) : a.filesBelow p = b.filesBelow p := by
  rw [Node.filesBelow, Node.filesBelow, ← filesAt_unnumbered, arrange_of_alike h.alike h.form h.form',
    filesAt_unnumbered]

end Node

namespace Disk

variable {d d' : Disk}

/-- A directory is listed on both disks with the same names, or the same failure. -/
theorem Alike.list (h : d.Alike d') (wf : d.root.WellFormed) (wf' : d'.root.WellFormed)
    (cwd : Place) (path : Path) :
    Both List.Perm (d.list cwd path) (d'.list cwd path) := by
  unfold Disk.list
  rcases (both_of_map (h.resolve cwd true path)).outcome with
    ⟨e, hr, hr'⟩ | ⟨⟨place, node⟩, ⟨place', node'⟩, hr, hr', same⟩
  · rw [hr, hr']
    exact .error e
  obtain ⟨rfl, outlines⟩ := Prod.mk.inj same
  have hg : d.get? place = some node := lookup_sound (resolve_ok.mp hr)
  have hg' : d'.get? place = some node' := lookup_sound (resolve_ok.mp hr')
  rw [hr, hr']
  cases node with
  | file | link => cases node' <;> first | exact .error _ | cases outlines
  | dir es =>
    cases node' with
    | file | link => cases outlines
    | dir es' =>
      obtain ⟨node', hn, alike⟩ := Node.alike_below h hg
      obtain rfl := Option.some.inj (hn.symm.trans hg')
      exact .ok (Node.names_perm alike (Node.wellFormed_dir.mp (wf.get? hg)).1
        (Node.wellFormed_dir.mp (wf'.get? hg')).1)

/-- What a path leads to is the same tree, or the same failure. -/
theorem Alike.snapshot (h : d.Alike d') (wf : d.root.WellFormed) (wf' : d'.root.WellFormed)
    (cwd : Place) (path : Path) :
    Both Node.Copies (d.snapshot cwd path) (d'.snapshot cwd path) := by
  unfold Disk.snapshot
  rcases (both_of_map (h.resolve cwd true path)).outcome with
    ⟨e, hr, hr'⟩ | ⟨⟨place, node⟩, ⟨place', node'⟩, hr, hr', same⟩
  · rw [hr, hr']
    exact .error e
  obtain ⟨rfl, -⟩ := Prod.mk.inj same
  have hg : d.get? place = some node := lookup_sound (resolve_ok.mp hr)
  have hg' : d'.get? place = some node' := lookup_sound (resolve_ok.mp hr')
  obtain ⟨inner, hi, alike⟩ := Node.alike_below h hg
  obtain rfl := Option.some.inj (hi.symm.trans hg')
  rw [hr, hr']
  exact .ok ⟨alike, wf.get? hg, wf'.get? hg'⟩

end Disk

end LayerPack
