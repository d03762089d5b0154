import LayerPack.Proofs.Disk.Leaves
import LayerPack.Proofs.Text.Order

/-! The order of the regular files of a tree. A walk that goes through the entries of every directory
by their names comes to the files in the order of their paths, component by component, and to each of
them once. -/
namespace LayerPack

open LayerPack.Path

/-- One place comes before another in the component-wise order of paths. -/
def Before (p q : List Name) : Prop :=
  p ≠ q ∧ leComponents (p.map .normal) (q.map .normal) = true

theorem leComponents_antisymm {p q : List Name}
    (h : leComponents (p.map .normal) (q.map .normal) = true)
    (h' : leComponents (q.map .normal) (p.map .normal) = true) : p = q := by
  induction p generalizing q with
  | nil =>
    cases q with
    | nil => rfl
    | cons => simp [leComponents] at h'
  | cons name rest ih =>
    cases q with
    | nil => simp [leComponents] at h
    | cons other more =>
      by_cases hn : name = other
      · subst hn
        simp only [List.map_cons, leComponents, if_true] at h h'
        rw [ih h h']
      · simp only [List.map_cons, leComponents, Component.normal.injEq, hn, Ne.symm hn, if_false,
          Component.le] at h h'
        exact (hn (Bytes.le_antisymm h h')).elim

theorem Before.asymm {p q : List Name} (h : Before p q) : ¬ Before q p :=
  fun h' => h.1 (leComponents_antisymm h.2 h'.2)

/-- What is told of places in their order is told in one way. -/
theorem eq_of_before {α : Type} {l l' : List (List Name × α)}
    (h : l.Pairwise fun a b => Before a.1 b.1) (h' : l'.Pairwise fun a b => Before a.1 b.1)
    (mem : ∀ x, x ∈ l ↔ x ∈ l') : l = l' := by
  have nodup {l : List (List Name × α)} (h : l.Pairwise fun a b => Before a.1 b.1) : l.Nodup :=
    h.imp fun before he => before.1 (congrArg Prod.fst he)
  exact ((List.perm_ext_iff_of_nodup (nodup h) (nodup h')).mpr mem).eq_of_pairwise
    (fun _ _ _ _ before before' => (before.asymm before').elim) h h'

namespace Node

variable {node : Node} {es : Entries} {place : List Name}

theorem before_cons {name : Name} {p q : List Name} (h : Before p q) :
    Before (name :: p) (name :: q) :=
  ⟨fun he => h.1 (List.cons.inj he).2, by simpa [leComponents] using h.2⟩

theorem before_of_name {name other : Name} (hne : name ≠ other) (h : Bytes.le name other)
    (p q : List Name) : Before (name :: p) (other :: q) :=
  ⟨fun he => hne (List.cons.inj he).1, by simpa [leComponents, hne, Component.le] using h⟩

/-- Directories whose entries stand in the order of their names have their leaves in order. -/
theorem pairwise_leaves_dir (sorted : es.Pairwise fun a b => a.1 ≠ b.1 ∧ Bytes.le a.1 b.1)
    (inner : ∀ e ∈ es, e.2.leaves.Pairwise fun a b => Before a.1 b.1) :
    (dir es).leaves.Pairwise fun a b => Before a.1 b.1 := by
  rw [leaves, leavesAll_eq, List.pairwise_flatMap]
  refine ⟨fun e he => ?_, sorted.imp fun order => ?_⟩
  · exact List.pairwise_map.mpr ((inner e he).imp before_cons)
  · obtain ⟨hne, hle⟩ := order
    intro x hx y hy
    obtain ⟨l, -, rfl⟩ := List.mem_map.mp hx
    obtain ⟨l', -, rfl⟩ := List.mem_map.mp hy
    exact before_of_name hne hle l.1 l'.1

theorem pairwise_leaves_arrange (wf : node.WellFormed) :
    node.arrange.leaves.Pairwise fun a b => Before a.1 b.1 := by
  induction wf with
  | file | link => exact List.pairwise_singleton _ _
  | @dir es nodup proper wf ih =>
    have perm := List.mergeSort_perm (arrangeAll es) fun a b : Name × Node => Bytes.le a.1 b.1
    refine pairwise_leaves_dir (List.Pairwise.and ?_ ?_) fun e he => ?_
    · refine List.pairwise_map.mp ((perm.map Prod.fst).nodup_iff.mpr ?_)
      rwa [arrangeAll_eq, List.map_map]
    · refine List.pairwise_mergeSort (fun a b c => ?_) (fun a b => ?_) (arrangeAll es)
      · exact Bytes.le_trans
      · exact Bytes.le_total a.1 b.1
    · rw [perm.mem_iff, arrangeAll_eq] at he
      obtain ⟨inner, hi, rfl⟩ := List.mem_map.mp he
      exact ih inner hi

/-- The regular files of a tree come in the order of their places. -/
theorem pairwise_regularFiles (wf : node.WellFormed) :
    node.regularFiles.Pairwise fun a b => Before a.1 b.1 := by
  rw [regularFiles_eq]
  refine (pairwise_leaves_arrange wf).filterMap _ fun a a' h b hb b' hb' => ?_
  obtain ⟨id, rfl⟩ := asFile_eq_some.mp hb
  obtain ⟨id', rfl⟩ := asFile_eq_some.mp hb'
  exact h

/-- The regular files, each with what is told of its mode and content. -/
def told {α : Type} (tell : Nat → ByteArray → α) (node : Node) : List (List Name × α) :=
  node.regularFiles.map fun file => (file.1, tell file.2.1 file.2.2)

section Told

variable {α : Type} {tell : Nat → ByteArray → α} {node' : Node}

theorem mem_told (wf : node.WellFormed) {x : α} : (place, x) ∈ node.told tell ↔
    ∃ id mode content, node.get? place = some (.file id mode content) ∧ tell mode content = x := by
  constructor
  · intro h
    obtain ⟨⟨_, mode, content⟩, hf, heq⟩ := List.mem_map.mp h
    cases heq
    obtain ⟨id, hg⟩ := (mem_regularFiles wf).mp hf
    exact ⟨id, mode, content, hg, rfl⟩
  · rintro ⟨id, mode, content, hg, rfl⟩
    exact List.mem_map.mpr ⟨(place, mode, content), (mem_regularFiles wf).mpr ⟨id, hg⟩, rfl⟩

/-- Two trees are told alike if the same is to be told at every place. -/
theorem told_eq_iff (wf : node.WellFormed) (wf' : node'.WellFormed) :
    node.told tell = node'.told tell ↔
      ∀ place x, (place, x) ∈ node.told tell ↔ (place, x) ∈ node'.told tell := by
  have ordered {node : Node} (wf : node.WellFormed) :
      (node.told tell).Pairwise fun a b => Before a.1 b.1 :=
    List.pairwise_map.mpr (pairwise_regularFiles wf)
  constructor
  · intro h place x
    rw [h]
  · intro h
    exact eq_of_before (ordered wf) (ordered wf') fun ⟨place, x⟩ => h place x

end Told

end Node

end LayerPack
