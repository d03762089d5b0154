import Mathlib.Data.List.Induction
import LayerPack.Proofs.Archive.Contents
import LayerPack.Proofs.Disk.Order
import LayerPack.Proofs.Disk.Plant

/-! What comes out of an archive. The name of an entry is a path from the directory that one extracts
into. As the entries of a tree have the names of its files, no two of them meet, none leads out of the
directory, and the files of the tree are what is found there. -/
namespace LayerPack

open LayerPack.Path

namespace Path

variable {place : List Name}

theorem joinSlash_ne_nil (h : ∀ name ∈ place, ProperName name) (hne : place ≠ []) :
    joinSlash place ≠ [] := by
  intro he
  have parts := splitSlash_joinSlash hne fun name hn => (h name hn).noSlash
  rw [he] at parts
  exact (h [] (parts ▸ List.mem_cons_self)).nonempty rfl

/-- Names that are joined are the path of the place below nothing. -/
theorem descend_nothing (h : ∀ name ∈ place, ProperName name) :
    descend ⟨[]⟩ place = ⟨joinSlash place⟩ := by
  induction place using List.reverseRecOn with
  | nil => rfl
  | append_singleton front name ih =>
    have hf : ∀ n ∈ front, ProperName n := fun n hn => h n (by simp [hn])
    have hn : ProperName name := h name (by simp)
    rw [descend, List.foldl_concat, ← descend, ih hf]
    refine congrArg Path.mk ((child_bytes _ hn).trans ?_)
    by_cases hne : front = []
    · subst hne
      rfl
    have hlast : (joinSlash front).getLast? ≠ some slash := by
      intro hl
      obtain ⟨before, hb⟩ := List.getLast?_eq_some_iff.mp hl
      have parts := splitSlash_joinSlash hne fun n hn => (hf n hn).noSlash
      rw [hb, splitSlash_append_slash] at parts
      exact (hf [] (parts ▸ by simp [splitSlash])).nonempty rfl
    rw [if_neg (not_or.mpr ⟨joinSlash_ne_nil hf hne, hlast⟩), joinSlash_concat hne]

theorem components_joinSlash (h : ∀ name ∈ place, ProperName name) :
    components ⟨joinSlash place⟩ = place.map .normal := by
  rw [← descend_nothing h, components_descend _ h]
  rfl

theorem settle_normal (names place : List Name) :
    settle names (place.map .normal) = names ++ place := by
  induction place generalizing names with
  | nil => simp [settle]
  | cons name rest ih => simp [settle, ih]

end Path

namespace Archive

variable {dest : Place} {root : Node} {entries : List Zip.Entry} {entry : Zip.Entry}
  {tree : Node} {place : List Name}

/-- Where an entry goes that is extracted into a directory. -/
def destination (dest : Place) (entry : Zip.Entry) : Place :=
  settle dest (components (.ofString entry.name))

/-- Extracts entries into the directory at a place of a tree. Directories are made as needed, nothing
that is there is replaced, and the files get numbers from `next` on. -/
def extract (dest : Place) : Nat → List Zip.Entry → Node → Option Node
  | _, [], root => some root
  | next, entry :: rest, root =>
    (Node.plant (.file next entry.mode entry.content) (destination dest entry) (some root)).bind
      (extract dest (next + 1) rest)

/-- The entries are in a tree as files, and nothing else has been added but directories above them. -/
structure Extracted (dest : Place) (entries : List Zip.Entry) (root root' : Node) : Prop where
  there : ∀ entry ∈ entries, ∃ id,
    root'.get? (destination dest entry) = some (.file id entry.mode entry.content)
  above : ∀ entry ∈ entries, ∀ up, up <+: destination dest entry → up ≠ destination dest entry →
    ∃ es, root'.get? up = some (.dir es)
  aside : ∀ q, (∀ entry ∈ entries, Apart (destination dest entry) q) → root'.get? q = root.get? q

/-- Entries that do not meet can be extracted one after another where nothing is in their way. -/
theorem extract_apart
    (apart : entries.Pairwise fun a b => Apart (destination dest a) (destination dest b))
    (free : ∀ entry ∈ entries, Node.Free (some root) (destination dest entry)) (next : Nat) :
    ∃ root', extract dest next entries root = some root' ∧ Extracted dest entries root root' := by
  induction entries generalizing root next with
  | nil => exact ⟨root, rfl, by simp, by simp, fun _ _ => rfl⟩
  | cons entry rest ih =>
    obtain ⟨hfirst, hrest⟩ := List.pairwise_cons.mp apart
    obtain ⟨root₁, hplant, planted⟩ : ∃ root₁,
        Node.plant (.file next entry.mode entry.content) (destination dest entry) (some root) =
          some root₁ ∧ Node.Planted _ _ _ root₁ := Node.plant_free (free entry List.mem_cons_self)
    have free₁ : ∀ e ∈ rest, Node.Free (some root₁) (destination dest e) := fun e he =>
      planted.free (hfirst e he) (free e (List.mem_cons_of_mem _ he))
    obtain ⟨root', hextract, extracted⟩ := ih hrest free₁ (next + 1)
    refine ⟨root', by rw [extract, hplant, Option.bind_some, hextract], ?_, ?_, fun q hq => ?_⟩
    · rw [List.forall_mem_cons]
      refine ⟨⟨next, ?_⟩, extracted.there⟩
      rw [extracted.aside _ fun e he => (hfirst e he).symm, planted.there]
    · rw [List.forall_mem_cons]
      refine ⟨fun up hu hne => ?_, extracted.above⟩
      -- a directory above the first file may also be one above a later one
      by_cases hshared : ∃ e ∈ rest, up <+: destination dest e
      · obtain ⟨e, he, hu'⟩ := hshared
        refine extracted.above e he up hu' fun h => ?_
        exact (hfirst e he).2 (h ▸ hu)
      · rw [extracted.aside up fun e he =>
          ⟨(hfirst e he).symm.above hu, fun h => hshared ⟨e, he, h⟩⟩]
        exact planted.above up hu hne
    · obtain ⟨hq₁, hq⟩ := List.forall_mem_cons.mp hq
      rw [extracted.aside q hq, planted.aside q hq₁, Option.bind_some]

theorem destination_of_name (h : ∀ name ∈ place, ProperName name)
    (hname : Bytes.ofString entry.name = joinSlash place) (dest : Place) :
    destination dest entry = dest ++ place := by
  rw [destination, ofString, hname, components_joinSlash h, settle_normal]

/-- Where different files stand in a tree, neither is in the way of the other. -/
theorem apart_of_files {p q : List Name} {a b : Node} (ha : tree.get? p = some a)
    (hb : tree.get? q = some b) (hfile : a.isDir = false) (hfile' : b.isDir = false) (hne : p ≠ q) :
    Apart p q := by
  have below {p q : List Name} {a b : Node} (ha : tree.get? p = some a) (hb : tree.get? q = some b)
      (hfile : a.isDir = false) (hne : p ≠ q) : ¬ p <+: q := by
    rintro ⟨rest, rfl⟩
    obtain ⟨name, more, rfl⟩ : ∃ name more, rest = name :: more :=
      List.exists_cons_of_ne_nil (by rintro rfl; simp at hne)
    obtain ⟨es, he⟩ := Node.dir_of_get?_append hb
    cases ha.symm.trans he
    cases hfile
  exact ⟨below ha hb hfile hne, below hb ha hfile' hne.symm⟩

/-- A name of an entry and the place of the file that it stands for. -/
structure NameOf (tree : Node) (entry : Zip.Entry) (place : List Name) : Prop where
  proper : ∀ name ∈ place, ProperName name
  some : place ≠ []
  name : Bytes.ofString entry.name = joinSlash place
  file : ∃ id mode, entry.mode = mode % 0o1000 ∧ tree.get? place = .some (.file id mode entry.content)

theorem NameOf.destination (h : NameOf tree entry place) (dest : Place) :
    destination dest entry = dest ++ place := destination_of_name h.proper h.name dest

theorem NameOf.splitSlash (h : NameOf tree entry place) :
    splitSlash (Bytes.ofString entry.name) = place := by
  rw [h.name, splitSlash_joinSlash h.some fun name hn => (h.proper name hn).noSlash]

theorem NameOf.unique {place' : List Name} (h : NameOf tree entry place)
    (h' : NameOf tree entry place') : place = place' := h.splitSlash.symm.trans h'.splitSlash

theorem NameOf.apart {other : Zip.Entry} {place' : List Name} (h : NameOf tree entry place)
    (h' : NameOf tree other place') (hne : place ≠ place') : Apart place place' := by
  obtain ⟨_, _, -, hg⟩ := h.file
  obtain ⟨_, _, -, hg'⟩ := h'.file
  exact apart_of_files hg hg' rfl rfl hne

section Encoded

variable (wf : tree.WellFormed) (isDir : tree.isDir = true)
include wf isDir

theorem nameOf_of_facts {mode : Nat} {content : ByteArray}
    (hf : (place, mode, content) ∈ tree.regularFiles)
    (h : facts entry = factsOf (place, mode, content)) : NameOf tree entry place := by
  simp only [factsOf, facts, Prod.mk.injEq] at h
  obtain ⟨hname, hmode, rfl⟩ := h
  obtain ⟨id, hg⟩ := (Node.mem_regularFiles wf).mp hf
  refine ⟨wf.properName hg, ?_, hname, id, mode, hmode, hg⟩
  rintro rfl
  obtain rfl := Option.some.inj hg
  cases isDir

variable (packs : Packs tree entries)
include packs

theorem exists_nameOf (he : entry ∈ entries) : ∃ place, NameOf tree entry place := by
  have hm : facts entry ∈ tree.regularFiles.map factsOf := packs.files ▸ List.mem_map_of_mem he
  obtain ⟨⟨place, mode, content⟩, hf, heq⟩ := List.mem_map.mp hm
  exact ⟨place, nameOf_of_facts wf isDir hf heq.symm⟩

theorem exists_entry {id mode : Nat} {content : ByteArray}
    (hg : tree.get? place = some (.file id mode content)) :
    ∃ entry ∈ entries, NameOf tree entry place := by
  have hf := (Node.mem_regularFiles wf).mpr ⟨id, hg⟩
  have hm : factsOf (place, mode, content) ∈ entries.map facts :=
    packs.files ▸ List.mem_map_of_mem hf
  obtain ⟨entry, he, heq⟩ := List.mem_map.mp hm
  exact ⟨entry, he, nameOf_of_facts wf isDir hf heq⟩

/-- The entries of a tree stand for its files in the order of their places. -/
theorem entries_before : entries.Pairwise fun a b =>
    ∃ p q, NameOf tree a p ∧ NameOf tree b q ∧ Before p q := by
  have files := (Node.pairwise_regularFiles wf).imp_of_mem
    (S := fun f g => ∀ a b, facts a = factsOf f → facts b = factsOf g →
      ∃ p q, NameOf tree a p ∧ NameOf tree b q ∧ Before p q)
    fun hf hg h a b ha hb =>
      ⟨_, _, nameOf_of_facts wf isDir hf ha, nameOf_of_facts wf isDir hg hb, h⟩
  have := List.pairwise_map (f := factsOf)
    (R := fun x y => ∀ a b, facts a = x → facts b = y →
      ∃ p q, NameOf tree a p ∧ NameOf tree b q ∧ Before p q) |>.mpr files
  rw [← packs.files] at this
  exact (List.pairwise_map.mp this).imp fun h => h _ _ rfl rfl

theorem entries_apart (dest : Place) :
    entries.Pairwise fun a b => Apart (destination dest a) (destination dest b) := by
  refine (entries_before wf isDir packs).imp fun ⟨p, q, hp, hq, before⟩ => ?_
  rw [hp.destination, hq.destination]
  have := hp.apart hq before.1
  exact ⟨fun h => this.1 ((List.prefix_append_right_inj dest).mp h),
    fun h => this.2 ((List.prefix_append_right_inj dest).mp h)⟩

section Fresh

variable (fresh : root.get? dest = some (.dir []))

omit wf isDir packs in
include fresh in
theorem get?_below_fresh (hne : place ≠ []) : root.get? (dest ++ place) = none := by
  obtain ⟨name, rest, rfl⟩ := List.exists_cons_of_ne_nil hne
  rw [Node.get?_append, fresh]
  rfl

omit wf isDir packs in
include fresh in
theorem dir_above_fresh {up : Place} (hu : up <+: dest) : ∃ es, root.get? up = some (.dir es) := by
  obtain ⟨rest, rfl⟩ := hu
  cases rest with
  | nil => exact ⟨[], by rwa [List.append_nil] at fresh⟩
  | cons name more => exact Node.dir_of_get?_append fresh

include fresh

theorem entries_free (he : entry ∈ entries) : Node.Free (some root) (destination dest entry) := by
  obtain ⟨place, name⟩ := exists_nameOf wf isDir packs he
  rw [name.destination dest]
  refine ⟨get?_below_fresh fresh name.some, fun up hu hne node hn => ?_⟩
  rw [Option.bind_some] at hn
  rcases List.prefix_or_prefix_of_prefix hu (List.prefix_append dest place) with hu | ⟨rest, rfl⟩
  · obtain ⟨es, hes⟩ := dir_above_fresh fresh hu
    exact Option.some.inj (hn.symm.trans hes) ▸ rfl
  by_cases hr : rest = []
  · subst hr
    rw [List.append_nil, fresh] at hn
    exact Option.some.inj hn ▸ rfl
  · cases (get?_below_fresh fresh hr).symm.trans hn

variable {root' : Node} (extracted : Extracted dest entries root root')
include extracted

/-- Nothing is seen of an extraction from outside the directory. -/
theorem look_outside {q : Place} (hq : ¬ dest <+: q) : root'.look q = root.look q := by
  by_cases hany : ∃ entry ∈ entries, q <+: destination dest entry
  · obtain ⟨entry, he, hu⟩ := hany
    obtain ⟨place, name⟩ := exists_nameOf wf isDir packs he
    have hup : q <+: dest := by
      rw [name.destination] at hu
      exact (List.prefix_or_prefix_of_prefix hu (List.prefix_append dest place)).resolve_right hq
    obtain ⟨es, hes⟩ := dir_above_fresh fresh hup
    obtain ⟨es', hes'⟩ := extracted.above entry he q hu fun h => by
      rw [h, name.destination] at hq
      exact hq (List.prefix_append _ _)
    rw [Node.look_of_get? hes, Node.look_of_get? hes']
  · have aside : ∀ entry ∈ entries, Apart (destination dest entry) q := by
      refine fun entry he => ⟨fun h => ?_, fun h => hany ⟨entry, he, h⟩⟩
      obtain ⟨place, name⟩ := exists_nameOf wf isDir packs he
      rw [name.destination] at h
      exact hq ((List.prefix_append _ _).trans h)
    rw [Node.look, Node.look, extracted.aside q aside]

omit wf isDir packs in
/-- Every file that is found in the directory afterwards has come from an entry. -/
theorem entry_of_file {id mode : Nat} {content : ByteArray}
    (hg : root'.get? (dest ++ place) = some (.file id mode content)) :
    ∃ entry ∈ entries, destination dest entry = dest ++ place := by
  by_contra hnone
  have aside : ∀ entry ∈ entries, Apart (destination dest entry) (dest ++ place) := by
    intro entry he
    refine ⟨?_, fun h => ?_⟩
    · rintro ⟨rest, hrest⟩
      cases rest with
      | nil => exact hnone ⟨entry, he, by rwa [List.append_nil] at hrest⟩
      | cons name more =>
        rw [← hrest] at hg
        obtain ⟨es, hes⟩ := Node.dir_of_get?_append hg
        obtain ⟨id', hthere⟩ := extracted.there entry he
        cases hthere.symm.trans hes
    · obtain ⟨es, hes⟩ := extracted.above entry he _ h fun h => hnone ⟨entry, he, h.symm⟩
      cases hg.symm.trans hes
  rw [extracted.aside _ aside] at hg
  by_cases hne : place = []
  · subst hne
    rw [List.append_nil, fresh] at hg
    cases hg
  · cases (get?_below_fresh fresh hne).symm.trans hg

/-- The files in the directory are those of the tree. -/
theorem file_extracted_iff {mode : Nat} {content : ByteArray} :
    (∃ id, root'.get? (dest ++ place) = some (.file id mode content)) ↔
      ∃ id mode', tree.get? place = some (.file id mode' content) ∧ mode = mode' % 0o1000 := by
  constructor
  · rintro ⟨id, hg⟩
    obtain ⟨entry, he, hd⟩ := entry_of_file fresh extracted hg
    obtain ⟨place', name⟩ := exists_nameOf wf isDir packs he
    obtain rfl := List.append_cancel_left ((name.destination dest).symm.trans hd)
    obtain ⟨id', hthere⟩ := extracted.there entry he
    cases (hd ▸ hthere).symm.trans hg
    obtain ⟨id, mode, hmode, hfile⟩ := name.file
    exact ⟨id, mode, hfile, hmode⟩
  · rintro ⟨id, mode', hg, rfl⟩
    obtain ⟨entry, he, name⟩ := exists_entry wf isDir packs hg
    obtain ⟨id', hthere⟩ := extracted.there entry he
    obtain ⟨id'', mode'', hmode, hfile⟩ := name.file
    cases hg.symm.trans hfile
    exact ⟨id', by rw [← name.destination dest, hthere, hmode]⟩

end Fresh

end Encoded

end Archive

end LayerPack
