import LayerPack.Proofs.Archive.EntryName
import LayerPack.Proofs.Disk.Bare
import LayerPack.Proofs.Disk.Decide
import LayerPack.Proofs.Disk.Spelled
import LayerPack.Proofs.Settings.Acceptance
import Mathlib.Data.List.Infix

/-! The prefix of an archive. It is checked, joined to the path of the tree, walked over, and taken out of
names again, and all of this reads it as the same names, however it is written. So the installer works at
or below the tree, and what it puts somewhere has the name inside the archive that the prefix and its own
path make. -/
namespace LayerPack

variable {d : Disk} {cwd place : Place} {p q r root : Path} {names : List Name}

namespace Path

/-- The names of a path are those of its parts; a dot at its beginning is none. -/
theorem given_eq (p : Path) :
    p.given = (componentsOf (splitSlash p.bytes)).filterMap Component.name? := by
  cases hp : p.isAbsolute with
  | true => rw [given, components_of_absolute hp]; rfl
  | false =>
    obtain ⟨head, dots, hc⟩ := components_of_relative hp
    have none : head.filterMap Component.name? = [] :=
      List.filterMap_eq_nil_iff.mpr fun c hc => by rw [dots c hc]; rfl
    rw [given, hc, List.filterMap_append, none, List.nil_append]

/-- What is joined to an absolute path adds its own components without a dot at its beginning. -/
theorem given_join (hp : p.isAbsolute) (hq : q.isAbsolute = false) :
    ∃ rest, (p.join q).components = p.components ++ rest ∧ rest.filterMap Component.name? = q.given ∧
      (rest.all Options.staysBelow = q.components.all Options.staysBelow) := by
  refine ⟨_, components_join hp hq, (given_eq q).symm, ?_⟩
  obtain ⟨head, dots, hc⟩ := components_of_relative hq
  have stays : head.all Options.staysBelow = true :=
    List.all_eq_true.mpr fun c hc => by rw [dots c hc]; rfl
  rw [hc, List.all_append, stays, Bool.true_and]

/-- A path that stays below is read as its names. -/
theorem componentsOf_given (h : p.components.all Options.staysBelow) :
    componentsOf (splitSlash p.bytes) = p.given.map .normal := by
  obtain ⟨-, more, hm⟩ := names_of_staysBelow h
  rw [given_eq, hm, Archive.filterMap_name?]

theorem properName_of_given (p : Path) : ∀ name ∈ p.given, ProperName name := by
  intro name hn
  obtain ⟨c, hc, he⟩ := List.mem_filterMap.mp hn
  cases c <;> cases he
  exact properName_of_mem_components hc

theorem given_joinSlash (hne : names ≠ []) (h : ∀ name ∈ names, ProperName name) :
    given ⟨joinSlash names⟩ = names := by
  rw [given_eq]
  change (componentsOf (splitSlash (joinSlash names))).filterMap Component.name? = names
  rw [splitSlash_joinSlash hne fun name hn => (h name hn).noSlash, componentsOf_names h,
    Archive.filterMap_name?]

end Path

namespace Disk

/-- What stays below a directory goes on from it by the names that are given. -/
theorem extends_given (hq : q.bytes ≠ []) (h : r.components.all Options.staysBelow) :
    Extends q (q.join r) r.given := by
  obtain ⟨relative, -⟩ := Path.names_of_staysBelow h
  refine ⟨?_, r.parts, parts_join hq relative, ?_⟩
  · rw [Path.join, if_neg (by simp [relative])]
    split <;> exact List.prefix_append _ _
  · rw [Path.parts, Path.componentsOf_filter, Path.componentsOf_given h]

theorem Extends.trans {more : List Name} (h : Extends p q names) (h' : Extends q r more) :
    Extends p r (names ++ more) := by
  obtain ⟨parts, hp, hn⟩ := h.parts
  obtain ⟨parts', hp', hn'⟩ := h'.parts
  exact ⟨h.start.trans h'.start, parts ++ parts', by rw [hp', hp, List.append_assoc],
    by rw [Path.componentsOf_append, hn, hn', List.map_append]⟩

/-- A file that a path goes on to by names stands where they say, as long as no link is on the way. -/
theorem Extends.file {es : Entries} {found : Place} {id mode : Nat} {content : ByteArray}
    (h : Extends q p names) (hq : q.isAbsolute) (there : d.resolve cwd true q = .ok (place, .dir es))
    (noLink : ∀ up target, up <+: names → d.get? (place ++ up) ≠ some (.link target))
    (leads : d.resolve cwd true p = .ok (found, .file id mode content)) : found = place ++ names := by
  obtain ⟨more, hparts, hm⟩ := h.parts
  obtain ⟨start, hb⟩ := Path.eq_slash_cons hq
  have hp : p.isAbsolute := by
    obtain ⟨rest, hr⟩ := h.start
    rw [Path.isAbsolute, ← hr, hb]
    rfl
  obtain ⟨-, es', way⟩ := leadsTo_iff.mp (leadsTo_of_resolve hq there)
  obtain ⟨-, left, onward⟩ := chase_append way
  obtain ⟨-, chased⟩ := lookup_eq_ok.mp (resolve_ok.mp leads)
  rw [startOf_absolute hp] at chased
  -- Behind the directory the walk goes on by parts that are read as the names.
  obtain ⟨rest, hrest, named, parts⟩ : ∃ rest, (rest = [] → partsOf p.bytes = q.parts) ∧
      Path.componentsOf rest = names.map .normal ∧ partsOf p.bytes = q.parts ++ rest := by
    rcases partsOf_parts p with hs | hs
    · exact ⟨more, fun he => by rw [hs, hparts, he, List.append_nil], hm, by rw [hs, hparts]⟩
    · refine ⟨more ++ [[]], fun he => by simp at he, ?_, by rw [hs, hparts, List.append_assoc]⟩
      rw [Path.componentsOf_append, hm]
      exact List.append_nil _
  by_cases hne : rest = []
  · rw [hrest hne, chase_unslash way] at chased
    cases chased
  rw [parts, onward true rest hne] at chased
  have at_ : (walk d.root true place rest).At d.root (place ++ names) :=
    walk_spelled named fun up target hu ht => (noLink up target hu ht).elim
  have arrived := arrived_of_chase at_ chased
  rw [arrived] at at_
  exact at_.1

end Disk

namespace Workspace

variable {w : Workspace} {options : Options} {o : Outside} {m : Machine} {s : Settings}

/-- The names of a prefix; without one there are none. -/
def prefixNames : Option Path → List Name
  | some p => p.given
  | none => []

/-- The directory of the installer is the tree or lies below it by these names, and its files have names
inside the archive that begin with them. -/
structure Confined (w : Workspace) (dir : Path) (front : List Name) : Prop where
  below : dir.components = w.target.components ++ front.map .normal
  /-- What has a name inside the archive, and what it is. -/
  named : ∀ r : Path, r.isAbsolute = false → ∀ name,
    Archive.entryName w.target (dir.join r) = .ok name ↔
      r.components.all Options.staysBelow = true ∧ front ++ r.given ≠ [] ∧
        (∀ n ∈ front ++ r.given, ∃ text, Bytes.ofString text = n) ∧
        Bytes.ofString name = joinSlash (front ++ r.given)
  /-- A path that is written as names with slashes between them is the end of the name. -/
  spelled : ∀ names, names ≠ [] → (∀ n ∈ names, ProperName n) → ∀ name,
    Archive.entryName w.target (dir.join ⟨joinSlash names⟩) = .ok name →
      Bytes.ofString name = joinSlash (front ++ [joinSlash names])
  /-- The walk over the tree finds a file at its own path, and under the same name. -/
  walked : ∀ (d : Disk) (cwd place : Place) (es : Entries) (r : Path),
    d.resolve cwd true w.target = .ok (place, .dir es) → d.root.WellFormed →
    r.components.all Options.staysBelow = true →
    (∀ up target, up <+: front ++ r.given → d.get? (place ++ up) ≠ some (.link target)) →
    ∀ found id mode content, d.resolve cwd true (dir.join r) = .ok (found, .file id mode content) →
      found = place ++ (front ++ r.given) ∧ ∀ files, (Node.dir es).filesBelow w.target = .ok files →
        ∃ p ∈ files, p.components = (dir.join r).components ∧ ∀ name,
          Archive.entryName w.target p = .ok name ↔ Archive.entryName w.target (dir.join r) = .ok name

variable {dir : Path} {front : List Name}

/-- The last part of a path of names may be written with slashes itself. -/
theorem joinSlash_nested (hne : names ≠ []) :
    joinSlash (front ++ [joinSlash names]) = joinSlash (front ++ names) := by
  by_cases hf : front = []
  · subst hf
    rfl
  · rw [Path.joinSlash_append hf hne, Path.joinSlash_append hf (by simp)]
    rfl

/-- A directory that is reached by names confines what is put below it. -/
theorem confined_of_extends (absolute : w.target.isAbsolute) (absolute' : dir.isAbsolute)
    (proper : ∀ name ∈ front, ProperName name)
    (below : dir.components = w.target.components ++ front.map .normal)
    (extends_ : Disk.Extends w.target dir front) : w.Confined dir front := by
  have named (r : Path) (hr : r.isAbsolute = false) (name : String) :
      Archive.entryName w.target (dir.join r) = .ok name ↔
        r.components.all Options.staysBelow = true ∧ front ++ r.given ≠ [] ∧
          (∀ n ∈ front ++ r.given, ∃ text, Bytes.ofString text = n) ∧
          Bytes.ofString name = joinSlash (front ++ r.given) := by
    obtain ⟨rest, hc, given, stays⟩ := Path.given_join absolute' hr
    rw [below, List.append_assoc] at hc
    rw [Archive.entryName_eq_ok hc, List.filterMap_append, Archive.filterMap_name?, given, List.all_append,
      stays]
    simp [Options.staysBelow]
  refine ⟨below, named, fun names hne hn name h => ?_, ?_⟩
  · obtain ⟨-, -, -, spelled⟩ := (named _ (Path.isAbsolute_joinSlash hne hn) name).mp h
    rw [spelled, Path.given_joinSlash hne hn, joinSlash_nested hne]
  · intro d cwd place es r there wf stays noLink found id mode content leads
    obtain ⟨relative, -⟩ := Path.names_of_staysBelow stays
    have onward := extends_.trans (Disk.extends_given (q := dir) (by
      obtain ⟨rest, hb⟩ := Path.eq_slash_cons absolute'
      simp [hb]) stays)
    obtain rfl := onward.file absolute there noLink leads
    have tree : d.root.get? place = some (.dir es) := Disk.lookup_sound (Disk.resolve_ok.mp there)
    have file : d.root.get? (place ++ (front ++ r.given)) = some (.file id mode content) :=
      Disk.lookup_sound (Disk.resolve_ok.mp leads)
    rw [Node.get?_append, tree] at file
    refine ⟨rfl, fun files walk => ?_⟩
    have names : ∀ name ∈ front ++ r.given, ProperName name := by
      intro name hn
      rcases List.mem_append.mp hn with hn | hn
      · exact proper name hn
      · exact r.properName_of_given name hn
    have same : (w.target.descend (front ++ r.given)).components = (dir.join r).components := by
      rw [Path.components_descend _ names, Path.components_join absolute' relative, below,
        Path.componentsOf_given stays, List.map_append, List.append_assoc]
    refine ⟨w.target.descend (front ++ r.given), ?_, same, fun name => ?_⟩
    · rw [Node.filesBelow_ok walk]
      exact List.mem_map.mpr ⟨_, (Node.mem_regularFiles (wf.get? tree)).mpr ⟨id, file⟩, rfl⟩
    · have rest := Path.components_descend w.target names
      rw [Archive.entryName_eq_ok rest, Archive.entryName_eq_ok (same.symm.trans rest)]

/-- A check reads a prefix as the same names that its result has. -/
theorem prefixNames_of_checked {given found : Option Path} (h : Options.checkPrefix given = .ok found) :
    prefixNames given = prefixNames found := by
  unfold Options.checkPrefix at h
  split at h
  · rw [Except.ok.inj h]
  next p =>
    split at h
    next empty =>
      obtain rfl : p = ⟨[]⟩ := congrArg Path.mk (List.isEmpty_iff.mp empty)
      rw [← Except.ok.inj h]
      rfl
    · split at h
      · rw [Except.ok.inj h]
      · cases h

theorem confined_of_checked (plain : w.root.Plain) {given found : Option Path}
    (h : Options.checkPrefix given = .ok found) :
    w.Confined (w.installDir found) (prefixNames given) := by
  have absolute : w.target.isAbsolute := Path.isAbsolute_join plain.spells.absolute _
  rw [prefixNames_of_checked h]
  obtain rfl | ⟨p, rfl, stays⟩ := Settings.checkPrefix_ok h
  · exact confined_of_extends absolute absolute (by simp [prefixNames]) (List.append_nil _).symm
      ⟨List.prefix_rfl, [], (List.append_nil _).symm, rfl⟩
  · obtain ⟨relative, -⟩ := Path.names_of_staysBelow stays
    refine confined_of_extends absolute (Path.isAbsolute_join absolute p) p.properName_of_given ?_
      (Disk.extends_given ?_ stays)
    · rw [installDir, Path.components_join absolute relative, Path.componentsOf_given stays]
      rfl
    · obtain ⟨rest, hb⟩ := Path.eq_slash_cons absolute
      simp [hb]

/-- Whatever prefix is accepted, and wherever the workspace is, the directory of the installer is confined
to the tree by the names of the prefix. Without a prefix, or with an empty one, a file has its own path as
its name. -/
theorem prefix_confined (plain : w.root.Plain) (accepted : (Machine.run o options.resolve m).1 = .ok s) :
    w.Confined (w.installDir s.layerPrefix) (prefixNames options.layerPrefix) ∧
    ((∀ p ∈ options.layerPrefix, p.bytes = []) → ∀ names, names ≠ [] → (∀ n ∈ names, ProperName n) →
      ∀ name, Archive.entryName w.target ((w.installDir s.layerPrefix).join ⟨joinSlash names⟩) = .ok name →
        Bytes.ofString name = joinSlash names) := by
  obtain ⟨current, package, given, settled⟩ := options.resolve_returns.run (Machine.answer o) m s accepted
  have confined : w.Confined (w.installDir s.layerPrefix) (prefixNames options.layerPrefix) :=
    confined_of_checked plain (Options.settle_ok settled).layerPrefix
  refine ⟨confined, fun none names hne hn name h => ?_⟩
  have front : prefixNames options.layerPrefix = [] := by
    cases hp : options.layerPrefix with
    | none => rfl
    | some p =>
      obtain rfl : p = ⟨[]⟩ := congrArg Path.mk (none p hp)
      rfl
  rw [confined.spelled names hne hn name h, front]
  rfl

/-- Dots and doubled slashes in a prefix change nothing, and the walk finds the file where it was put. -/
theorem spelled_prefix_confined :
    let options := { Options.small "/work" "/out.zip" with layerPrefix := some (.ofString "./a//b/.") }
    let s := { Settings.small "/work" "/out.zip" with layerPrefix := some (.ofString "./a//b/.") }
    let w : Workspace := ⟨.ofString "/ws"⟩
    let dir := w.installDir s.layerPrefix
    let tree : Entries := [(Bytes.ofString "a", .dir [(Bytes.ofString "b", .dir [
      (Bytes.ofString "m.py", .file 0 0o644 .empty)])])]
    let d := (Machine.small [("ws", .dir [(Bytes.ofString "target", .dir tree)])]).disk
    w.root.Plain ∧ (Machine.run (.small []) options.resolve (.small [])).1 = .ok s ∧
    dir.components = w.target.components ++ [.normal (Bytes.ofString "a"), .normal (Bytes.ofString "b")] ∧
    Archive.entryName w.target (dir.join (.ofString "./m.py")) = .ok "a/b/m.py" ∧
    (∃ found file, d.resolve [] true (dir.join (.ofString "./m.py")) = .ok (found, file) ∧
      found = ["ws", "target", "a", "b", "m.py"].map Bytes.ofString) ∧
    ∃ p, (Node.dir tree).filesBelow w.target = .ok [p] ∧ Archive.entryName w.target p = .ok "a/b/m.py" := by
  intro options s w dir tree d
  have plain : w.root.Plain := ⟨[Bytes.ofString "ws"], by decide, by decide⟩
  have accepted : (Machine.run (.small []) options.resolve (.small [])).1 = .ok s := by decide +kernel
  have confined := (prefix_confined plain accepted).1
  have names : prefixNames options.layerPrefix ++ (Path.ofString "./m.py").given =
      ["a", "b", "m.py"].map Bytes.ofString := by decide
  have texts : ∀ n ∈ prefixNames options.layerPrefix ++ (Path.ofString "./m.py").given,
      ∃ text, Bytes.ofString text = n := by
    rw [names]
    exact fun n hn => (List.mem_map.mp hn).imp fun text ht => ht.2
  have name : Archive.entryName w.target (dir.join (.ofString "./m.py")) = .ok "a/b/m.py" :=
    (confined.named (.ofString "./m.py") rfl "a/b/m.py").mpr ⟨by decide, by decide, texts, by decide⟩
  have noLink : ∀ up target, up <+: prefixNames options.layerPrefix ++ (Path.ofString "./m.py").given →
      d.get? ([Bytes.ofString "ws", Bytes.ofString "target"] ++ up) ≠ some (.link target) := by
    rw [names]
    have noLink : ∀ up ∈ (["a", "b", "m.py"].map Bytes.ofString).inits,
        ((d.get? ([Bytes.ofString "ws", Bytes.ofString "target"] ++ up)).all (!·.isLink)) = true := by
      decide +kernel
    intro up target hu hg
    have := noLink up ((List.mem_inits up _).mpr hu)
    rw [hg] at this
    cases this
  have walk : (Node.dir tree).filesBelow w.target = .ok [.ofString "/ws/target/a/b/m.py"] := by
    simp only [tree, Node.filesBelow, Node.arrange, Node.arrangeAll, List.mergeSort_singleton]
    rfl
  obtain ⟨place, listed⟩ := confined.walked d [] [Bytes.ofString "ws", Bytes.ofString "target"] tree
    (.ofString "./m.py") rfl (by decide +kernel) (by decide) noLink _ 0 0o644 .empty rfl
  obtain ⟨p, hp, -, same⟩ := listed _ walk
  refine ⟨plain, accepted, confined.below, name, ⟨_, _, rfl, place.trans ?_⟩, p, ?_, (same _).mpr name⟩
  · rw [names]
    rfl
  · rw [List.mem_singleton.mp hp]
    exact walk

end Workspace

end LayerPack
