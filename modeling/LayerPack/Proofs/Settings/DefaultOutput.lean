import LayerPack.Proofs.Path.Resolution
import LayerPack.Proofs.Pipeline.Clearing
import LayerPack.Proofs.Settings.Acceptance
import LayerPack.Proofs.Text.Utf8

/-! Where an archive goes that nobody has chosen a place for. The name of the project is written into a
path, and a slash in it is read as one: the archive stands in the current directory exactly if there is
none. Otherwise it stands where what is in front of the last slash leads, and an old file is removed
there. -/
namespace LayerPack

open Machine

namespace Path

variable {names : List Name} {name : Name}

/-- A name after a path stands in the directory that the path leads to. -/
theorem absolute_name_after (cwd : Path) (front : Bytes) (hn : ProperName name) :
    absolute cwd ⟨front ++ slash :: name⟩ =
      ofNames ((absolute cwd ⟨front ++ [slash]⟩).names ++ [name]) := by
  have start : isAbsolute ⟨front ++ slash :: name⟩ = isAbsolute ⟨front ++ [slash]⟩ := by
    cases front <;> rfl
  have before : componentsOf (splitSlash (front ++ [slash])) = componentsOf (splitSlash front) := by
    rw [splitSlash_append_slash, componentsOf_append]
    exact List.append_nil _
  have single : componentsOf [name] = [.normal name] := componentsOf_names (by simpa using hn)
  have all : componentsOf (splitSlash (front ++ slash :: name)) =
      componentsOf (splitSlash front) ++ [.normal name] := by
    rw [splitSlash_append_slash, splitSlash_of_notMem hn.noSlash, componentsOf_append, single]
  rw [(Spells.absolute' cwd ⟨front ++ [slash]⟩).names_eq]
  unfold absolute namesFrom
  rw [settle_components _ ⟨front ++ slash :: name⟩, settle_components _ ⟨front ++ [slash]⟩, start,
    before, all, settle_append]
  rfl

theorem absolute_name (h : ∀ name ∈ names, ProperName name) (hn : ProperName name) :
    absolute (ofNames names) ⟨name⟩ = ofNames (names ++ [name]) := by
  unfold absolute namesFrom
  rw [components_name hn]
  change ofNames ((ofNames names).names ++ [name]) = _
  rw [(Spells.ofNames h).names_eq]

end Path

namespace Package

/-- What stands before the ending of an archive is no path structure if it has no slash. -/
theorem properName_archive {text : String} (h : '/' ∉ text.toList) :
    ProperName (Bytes.ofString (text ++ "-layer.zip")) := by
  have long : 10 ≤ (Bytes.ofString (text ++ "-layer.zip")).length := by
    rw [Bytes.ofString_append, List.length_append]
    exact Nat.le_add_left 10 _
  have other {b : Bytes} (hb : b.length < 10) : Bytes.ofString (text ++ "-layer.zip") ≠ b :=
    fun he => absurd (he ▸ long) (by omega)
  refine ⟨other (by decide), fun hs => ?_, other (by decide), other (by decide)⟩
  rw [Bytes.ofString_append, List.mem_append] at hs
  exact hs.elim (fun hs => h (Bytes.slash_mem_of_ofString hs)) (by decide)

end Package

namespace Disk

/-- What is not below the root is no file. -/
theorem nonempty_of_file {names : List Name} {d : Disk} {cwd place : Place} {id mode : Nat}
    {content : ByteArray} (h : d.resolve cwd false (.ofNames names) = .ok (place, .file id mode content)) :
    names ≠ [] := by
  rintro rfl
  have hc : Disk.chase d.root false Disk.maxLinks [] [[]] = .ok (.found place (.file id mode content)) :=
    Disk.resolve_ok.mp h
  obtain ⟨es, hd⟩ := Disk.dir_of_chase (List.cons_ne_nil _ _) hc
  have root : d.root = .dir es := Option.some.inj hd
  rw [root] at hc
  cases hc

end Disk

namespace Pipeline

/-- Whatever file an output leads to is dropped, wherever it stands. -/
theorem stale_archive_dropped {o : Outside} {n : Machine} {output : Path} {place : Place} {id mode : Nat}
    {content : ByteArray} (plain : output.Plain) (sound : ∀ tick, o.fault tick = none)
    (wf : n.disk.root.WellFormed)
    (there : n.disk.resolve n.cwd false output = .ok (place, .file id mode content)) :
    (Machine.run o (removeStaleArchive output none) n).1 = .ok () ∧
      (Machine.run o (removeStaleArchive output none) n).2.disk.get? place = none := by
  obtain ⟨names, rfl, proper⟩ := plain
  obtain ⟨parts, last, split⟩ := Disk.splitLast_ofNames proper (Disk.nonempty_of_file there)
  obtain ⟨parent, name, slashed, named, rfl⟩ := Disk.lookupParent_of_seat (Disk.seat_of_resolve split there)
  obtain ⟨rfl, rfl⟩ : last = name ∧ false = slashed := by
    have ends := (Disk.lookupParent_eq_ok.mp named).2.2.1
    rw [split] at ends
    exact Disk.Last.name.inj ends
  have file : n.disk.get? (parent ++ [last]) = some (.file id mode content) :=
    Disk.lookup_sound (Disk.resolve_ok.mp there)
  have early : n.Early ⟨false, false, 0⟩ none := fun _ h => by cases h
  obtain ⟨g, ⟨ok, -, -, disk⟩, without⟩ := does_removeStaleArchive
    (Outside.steady_of_sound sound) early wf named fun es h => by cases file.symm.trans h
  refine ⟨ok, ?_⟩
  rw [Machine.run, disk]
  simpa using without.gone []

end Pipeline

namespace Options

variable {options : Options} {o : Outside} {m : Machine} {s : Settings}

/-- A default output is the path that the name of the project makes, read from the current directory. -/
theorem output_of_resolve (wf : m.disk.root.WellFormed)
    (accepted : (Machine.run o options.resolve m).1 = .ok s) (unasked : options.output = none) :
    (∀ name ∈ m.cwd, ProperName name) ∧
      s.output = .absolute (.ofNames m.cwd) (.ofString s.package.archiveName) := by
  obtain ⟨package, given, here, -, settled⟩ := options.resolve_settles s accepted
  refine ⟨(currentPath_ok wf here).2, ?_⟩
  rw [(settle_ok settled).output, (kept_of_settle settled).package, unasked]
  rfl

/-- A name without a slash makes an archive in the current directory. -/
theorem default_output_inside (proper : ∀ name ∈ m.cwd, ProperName name)
    (output : s.output = .absolute (.ofNames m.cwd) (.ofString s.package.archiveName))
    (plain : '/' ∉ s.package.name.toList) :
    s.output = .ofNames (m.cwd ++ [Bytes.ofString s.package.archiveName]) :=
  output.trans (Path.absolute_name proper (Package.properName_archive plain))

/-- What is in front of the last slash of a name is the way to the archive. -/
theorem default_output_led (output : s.output = .absolute (.ofNames m.cwd) (.ofString s.package.archiveName))
    {front last : String} (named : s.package.name = front ++ "/" ++ last) (plain : '/' ∉ last.toList) :
    s.output = .ofNames ((Path.absolute (.ofNames m.cwd) (.ofString (front ++ "/"))).names ++
      [Bytes.ofString (last ++ "-layer.zip")]) := by
  have slashed : Bytes.ofString "/" = [slash] := by decide
  have spelled : Path.ofString s.package.archiveName =
      ⟨Bytes.ofString front ++ slash :: Bytes.ofString (last ++ "-layer.zip")⟩ := by
    simp [Path.ofString, Package.archiveName, named, slashed]
  have way : Path.ofString (front ++ "/") = ⟨Bytes.ofString front ++ [slash]⟩ := by
    simp [Path.ofString, slashed]
  rw [output, spelled, way]
  exact Path.absolute_name_after _ _ (Package.properName_archive plain)

/-- Without an output of its own a project gets its archive in the current directory exactly if there is no
slash in its name. Otherwise the archive stands where the part before the last slash leads, and what is
removed as an old archive is the file that stands there. -/
theorem default_output (wf : m.disk.root.WellFormed)
    (accepted : (Machine.run o options.resolve m).1 = .ok s) (unasked : options.output = none) :
    (s.output.names = m.cwd ++ [Bytes.ofString s.package.archiveName] ↔
      '/' ∉ s.package.name.toList) ∧
    (∀ front last : String, s.package.name = front ++ "/" ++ last → '/' ∉ last.toList →
      s.output = .ofNames ((Path.absolute (.ofNames m.cwd) (.ofString (front ++ "/"))).names ++
        [Bytes.ofString (last ++ "-layer.zip")])) ∧
    ∀ (out : Outside) (n : Machine) (place : Place) (id mode : Nat) (content : ByteArray),
      (∀ tick, out.fault tick = none) → n.disk.root.WellFormed →
      n.disk.resolve n.cwd false s.output = .ok (place, .file id mode content) →
      (Machine.run out (Pipeline.removeStaleArchive s.output none) n).1 = .ok () ∧
        (Machine.run out (Pipeline.removeStaleArchive s.output none) n).2.disk.get? place = none := by
  obtain ⟨proper, output⟩ := output_of_resolve wf accepted unasked
  have plain : s.output.Plain := output ▸ Path.plain_absolute _ _
  refine ⟨⟨fun inside hs => ?_, fun none => ?_⟩, fun front last => default_output_led output,
    fun out n place id mode content sound form there => Pipeline.stale_archive_dropped plain sound form there⟩
  · -- The names of a path have no slashes.
    have name := plain.spells.proper _ (inside ▸ List.mem_append_right _ (List.mem_singleton_self _))
    refine name.noSlash ?_
    rw [Package.archiveName, Bytes.ofString_append, List.mem_append]
    exact .inl (Bytes.slash_mem_ofString hs)
  · rw [default_output_inside proper output none]
    refine (Path.Spells.ofNames fun name hn => ?_).names_eq
    rcases List.mem_append.mp hn with hn | hn
    · exact proper name hn
    · exact List.mem_singleton.mp hn ▸ Package.properName_archive none

/-- A project whose name begins with two dots and a slash takes the archive out of the current
directory, and the file that is removed for it. -/
theorem climbing_name_output :
    let home : Machine := { Machine.small [("home", .dir []), ("up-layer.zip", .file 0 0o644 .empty)] with
      cwd := [Bytes.ofString "home"] }
    let options : Options := { Options.small "/work" "" with package := some ⟨"../up", none⟩, output := none }
    let s : Settings := { Settings.small "/work" "/up-layer.zip" with package := ⟨"../up", none⟩ }
    home.disk.root.WellFormed ∧ (Machine.run (.small []) options.resolve home).1 = .ok s ∧
      options.output = none ∧ s.output.names ≠ home.cwd ++ [Bytes.ofString s.package.archiveName] ∧
      s.output = .ofNames [Bytes.ofString "up-layer.zip"] ∧
      (Machine.run (.small []) (Pipeline.removeStaleArchive s.output none) home).2.disk.get?
        [Bytes.ofString "up-layer.zip"] = none := by
  intro home options s
  have wf : home.disk.root.WellFormed := by decide +kernel
  have accepted : (Machine.run (.small []) options.resolve home).1 = .ok s := by decide +kernel
  have ⟨inside, led, removed⟩ := default_output wf accepted rfl
  exact ⟨wf, accepted, rfl, fun h => inside.mp h (by decide), led ".." "up" rfl (by decide),
    (removed (.small []) home _ 0 0o644 .empty (fun _ => rfl) wf rfl).2⟩

end Options

end LayerPack
