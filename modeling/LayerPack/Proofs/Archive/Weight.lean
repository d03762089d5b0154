import LayerPack.Proofs.Archive.Atomicity
import LayerPack.Proofs.Archive.Verdict
import LayerPack.Proofs.Zip.ReadBack

/-! What the check of the size limits finds in a written archive. The writer measures what it has written
and counts the files of the tree, and the check reads the directory of the archive. They come to the same
numbers, and the sizes in the directory add up to the sizes of the files in the tree. -/
namespace LayerPack

open Program Machine

namespace Node

/-- The length of a regular file; nothing else has contents. -/
def length : Node → Nat
  | file _ _ content => content.size
  | link _ | dir _ => 0

mutual
/-- The lengths of all regular files of a tree together. -/
def weight : Node → Nat
  | dir es => weightAll es
  | file _ _ content => content.size
  | link _ => 0

def weightAll : List (Name × Node) → Nat
  | [] => 0
  | (_, node) :: rest => node.weight + weightAll rest
end

theorem weightAll_eq (es : Entries) : weightAll es = (es.map fun e => e.2.weight).sum := by
  induction es with
  | nil => rfl
  | cons e rest ih => rw [weightAll, ih, List.map_cons, List.sum_cons]

mutual
theorem weight_arrange : (node : Node) → node.arrange.weight = node.weight
  | file .. | link _ => rfl
  | dir es => by
    have sorted := (List.mergeSort_perm (arrangeAll es) fun a b : Name × Node => Bytes.le a.1 b.1).map
      fun e => e.2.weight
    rw [arrange, weight, weightAll_eq, sorted.sum_nat, ← weightAll_eq, weightAll_arrangeAll es, weight]

theorem weightAll_arrangeAll : (es : List (Name × Node)) → weightAll (arrangeAll es) = weightAll es
  | [] => rfl
  | (_, node) :: rest => by
    rw [arrangeAll, weightAll, weightAll, weight_arrange node, weightAll_arrangeAll rest]
end

mutual
theorem sum_leaves : (node : Node) → (node.leaves.map fun l => l.2.length).sum = node.weight
  | file .. | link _ => rfl
  | dir es => sum_leavesAll es

theorem sum_leavesAll :
    (es : List (Name × Node)) → ((leavesAll es).map fun l => l.2.length).sum = weightAll es
  | [] => rfl
  | (name, node) :: rest => by
    rw [leavesAll, List.map_append, List.sum_append, List.map_map, sum_leavesAll rest, weightAll]
    exact congrArg (· + weightAll rest) (sum_leaves node)
end

theorem sum_asFile (leaves : List (List Name × Node)) :
    ((leaves.filterMap asFile).map fun f => f.2.2.size).sum = (leaves.map fun l => l.2.length).sum := by
  induction leaves with
  | nil => rfl
  | cons l rest ih =>
    obtain ⟨place, leaf⟩ := l
    rw [List.map_cons, List.sum_cons]
    cases leaf with
    | file id mode content =>
      have here : asFile (place, file id mode content) = some (place, mode, content) := rfl
      rw [List.filterMap_cons_some here, List.map_cons, List.sum_cons, ih, length]
    | link target | dir es => rw [List.filterMap_cons_none rfl, ih, length, Nat.zero_add]

/-- The walk over a tree finds its weight. -/
theorem sum_regularFiles (node : Node) :
    (node.regularFiles.map fun f => f.2.2.size).sum = node.weight := by
  rw [regularFiles_eq, sum_asFile, sum_leaves, weight_arrange]

end Node

variable {d d' : Disk} {cwd place : Place} {output : Path}

/-- If the path still leads somewhere, then to the file that stands in its entry now. -/
theorem Disk.Replaced.found {id mode : Nat} {content : ByteArray} {found : Place × Node}
    (h : d.Replaced cwd output (.file id mode content) place d')
    (hr : d'.resolve cwd true output = .ok found) : found = (place, .file id mode content) := by
  obtain ⟨parent, last, hp⟩ := lookupParent_of_lookup (resolve_ok.mp hr)
  have back : d'.ChangedAt place d := fun q hq => (h.frame q hq).symm
  have before := lookupParent_keeps (back.keepsWays (noWay_of_file h.there)) hp
  rcases h.leads with leads | ⟨-, apart⟩
  · cases (leads true).symm.trans hr
    rfl
  · refine Classical.byContradiction fun other => apart fun dir name way _ _ _ => ?_
    cases way.symm.trans before
    obtain rfl := Option.some.inj (h.seat.symm.trans (seat_of_lookupParent way))
    cases (resolve_file hp h.there true).symm.trans hr
    exact (other rfl).elim

namespace Archive

variable {o : Outside} {m : Machine} {tree : Node} {entries : List Zip.Entry} {summary : Summary}
  {limits : Limits} {found : LimitReport}

/-- The sizes of the entries add up to the weight of the tree. -/
theorem Packs.weight (h : Packs tree entries) : (entries.map (·.content.size)).sum = tree.weight := by
  have sizes := congrArg (List.map fun f => f.2.2.size) h.files
  rw [List.map_map, List.map_map] at sizes
  rw [← Node.sum_regularFiles]
  exact congrArg List.sum sizes

/-- Where the paths and the files of a tree are not too long, the numbers of its archive fit their fields. -/
theorem Packs.fits (h : Packs tree entries)
    (paths : ∀ file ∈ tree.regularFiles, (joinSlash file.1).length < 2 ^ 16)
    (contents : ∀ file ∈ tree.regularFiles, file.2.2.size < 2 ^ 32)
    (count : tree.regularFiles.length < Zip.countLimit)
    (size : (Zip.encode entries).size < Zip.sizeLimit) : Zip.Fits entries := by
  have origin (entry : Zip.Entry) (he : entry ∈ entries) :
      ∃ file ∈ tree.regularFiles, factsOf file = facts entry :=
    List.mem_map.mp (h.files ▸ List.mem_map_of_mem he)
  refine ⟨fun entry he => ?_, fun entry he => ?_, ?_, size⟩
  · obtain ⟨file, hf, told⟩ := origin entry he
    have name : Bytes.ofString entry.name = joinSlash file.1 := (congrArg Prod.fst told).symm
    change (Bytes.ofString entry.name).length < _
    rw [name]
    exact paths file hf
  · obtain ⟨file, hf, told⟩ := origin entry he
    have content : entry.content = file.2.2 := (congrArg (·.2.2) told).symm
    rw [content]
    exact contents file hf
  · have same := congrArg List.length h.files
    rw [List.length_map, List.length_map] at same
    rwa [same]

/-- The archive of a tree stands in the entry that the output names, and the summary is about it. -/
structure Stored (tree : Node) (cwd : Place) (output : Path) (summary : Summary)
    (entries : List Zip.Entry) (d : Disk) : Prop where
  packs : Packs tree entries
  placed : ∃ (before : Disk) (id : Nat) (place : Place),
    before.Replaced cwd output (.file id Disk.newMode (Zip.encode entries)) place d
  files : summary.files = entries.length
  measures : Measures entries (summary.bytes, summary.sha256)

theorem write_stores (wf : m.disk.root.WellFormed) (root output : Path) (deadline : Option Nat) :
    (write root output deadline).Ends (answer o) m fun r _ m' => ∀ summary, r = .ok summary →
      m'.cwd = m.cwd ∧ ∃ place es entries, m.disk.resolve m.cwd true root = .ok (place, .dir es) ∧
        Stored (.dir es) m.cwd output summary entries m'.disk := by
  refine (write_publishes wf deadline).mono ?_
  rintro r _ m' (⟨⟨stop, rfl⟩, -⟩ | ⟨summary, rfl, published⟩)
  · exact fun _ h => by cases h
  · rintro _ ⟨⟩
    obtain ⟨entries, before, id, place', complete, -, replaced, files, measures⟩ := published.placed
    obtain ⟨files', d, some, collected, grows, read⟩ := complete
    obtain ⟨place, es, hroot, packs⟩ := packs_of_collected wf collected some grows read
    exact ⟨published.cwd, place, es, entries, hroot,
      packs, ⟨before, id, place', replaced⟩, files, measures⟩

/-- The report says of the archive what the summary says, and of its contents what the tree weighs. -/
structure Tells (limits : Limits) (summary : Summary) (tree : Node) (found : LimitReport) : Prop where
  zipped : found.zippedBytes = summary.bytes
  entries : found.entries = summary.files
  unzipped : tree.weight < 2 ^ 64 → found.unzippedBytes = tree.weight
  capped : found.unzippedBytes = min tree.weight maxCount
  isWithin : found.isWithin ↔
    summary.bytes ≤ limits.maxZipped ∧ min tree.weight maxCount ≤ limits.maxUnzipped

theorem Stored.tells (h : Stored tree cwd output summary entries d) {items : List Zip.Item}
    (facts : items.map (fun item => (item.name, item.size)) =
      entries.map fun e => (e.name, e.content.size)) (limits : Limits) :
    Tells limits summary tree (limits.report (Zip.encode entries).size items) := by
  have sizes := congrArg (List.map Prod.snd) facts
  rw [List.map_map, List.map_map] at sizes
  have total : totalSize (items.map (·.size)) = min tree.weight maxCount := by
    rw [totalSize_eq, ← h.packs.weight]
    exact congrArg (fun sizes => min (List.sum sizes) maxCount) sizes
  have count := congrArg List.length facts
  rw [List.length_map, List.length_map] at count
  refine ⟨h.measures.1, count.trans h.files.symm, fun countable => total.trans ?_, total, ?_⟩
  · rw [maxCount, Nat.pow_eq]
    exact Nat.min_eq_left (Nat.le_pred_of_lt countable)
  · rw [isWithin_report, LimitReport.Keeps]
    change (Zip.encode entries).size ≤ _ ∧ totalSize (items.map (·.size)) ≤ _ ↔ _
    rw [total, h.measures.1]

/-- A check ends with a report that tells of the tree, unless a request was refused. -/
def Reports (o : Outside) (limits : Limits) (summary : Summary) (tree : Node)
    (r : Except Error LimitReport) (trace : List (Request × Machine)) : Prop :=
  (∃ found, r = .ok found ∧ Tells limits summary tree found) ∨
    ∃ e why, o.Faults trace e ∧ r = .error why

/-- The archive is reported on wherever it is found. -/
theorem Stored.reports (h : Stored tree cwd output summary entries d) (readable : Zip.ReadsBack entries)
    {archive : Path} {mode : Nat} (file : m.disk.FileAt m.cwd archive mode (Zip.encode entries))
    (limits : Limits) :
    (check archive limits).Ends (answer o) m fun r trace _ =>
      Reports o limits summary tree r trace := by
  obtain ⟨items, readable, facts⟩ := readable
  refine (check_reports file readable limits).mono fun r _ _ hr => hr.imp_left fun hr => ?_
  exact ⟨_, hr, h.tells facts limits⟩

/-- There is no report on a path that leads nowhere. -/
theorem check_lost {archive : Path} (lost : ∀ found, m.disk.resolve m.cwd true archive ≠ .ok found) :
    (check archive limits).Ends (answer o) m fun r _ _ => ∃ why, r = .error why := by
  refine Ends.bind (p := Files.openRead archive) (M := fun r _ _ => ∀ file, r ≠ .ok file) ?_ ?_
  · intro file h
    have opened := openRead_ok h
    unfold Disk.openRead at opened
    cases hr : m.disk.resolve m.cwd true archive with
    | error e =>
      rw [hr] at opened
      cases opened
    | ok found => exact lost found hr
  · rintro (e | file) _ _ unopened
    · exact ⟨_, rfl⟩
    · exact (unopened file rfl).elim

/-- Writer and checker agree. When a tree has been archived, the report on the archive has the bytes and the
number of files of the summary and the weight of the tree, as far as it can be counted: in the state that
the writer leaves, if the output still leads anywhere, and on any machine, under any path that leads to the
same bytes. Only a refused request keeps the check from this report. That the archive is read back as it
was written needs no assumption if its numbers fit their fields. -/
theorem written_archive_weighed (wf : m.disk.root.WellFormed) (root output : Path)
    (deadline : Option Nat) (o : Outside) :
    (write root output deadline).Ends (answer o) m fun r _ m' => ∀ summary, r = .ok summary →
      ∃ place es entries, m.disk.resolve m.cwd true root = .ok (place, .dir es) ∧
        Stored (.dir es) m.cwd output summary entries m'.disk ∧
        (Zip.Fits entries → Zip.ReadsBack entries) ∧
        (Zip.ReadsBack entries → ∀ (limits : Limits) (o' : Outside),
          ((check output limits).Ends (answer o') m' fun r' trace _ =>
            Reports o' limits summary (.dir es) r' trace ∨
              (∀ found, m'.disk.resolve m'.cwd true output ≠ .ok found) ∧ ∃ why, r' = .error why) ∧
          ∀ (n : Machine) (archive : Path) (mode : Nat),
            n.disk.FileAt n.cwd archive mode (Zip.encode entries) →
            (check archive limits).Ends (answer o') n fun r' trace _ =>
              Reports o' limits summary (.dir es) r' trace) := by
  refine (write_stores wf root output deadline).mono fun r _ m' stores summary h => ?_
  obtain ⟨hcwd, place, es, entries, hroot, stored⟩ := stores summary h
  have wft : (Node.dir es).WellFormed :=
    wf.get? (p := place) (Disk.lookup_sound (Disk.resolve_ok.mp hroot))
  refine ⟨place, es, entries, hroot, stored, ?_, fun readable limits o' => ⟨?_, ?_⟩⟩
  · exact Zip.readsBack_of_fits (encodes_of_packs wft rfl stored.packs).distinct
  · by_cases lost : ∀ found, m'.disk.resolve m'.cwd true output ≠ .ok found
    · exact (check_lost lost).mono fun _ _ _ failed => .inr ⟨lost, failed⟩
    · simp only [ne_eq, not_forall, not_not] at lost
      obtain ⟨found, leads⟩ := lost
      obtain ⟨before, id, at', replaced⟩ := stored.placed
      obtain rfl := replaced.found (hcwd ▸ leads)
      exact (stored.reports readable ⟨at', id, leads⟩ limits).mono fun _ _ _ reports => .inl reports
  · exact fun n archive mode file => stored.reports readable file limits

/-- A file of three bytes. -/
def smallCargo : Entries := [(Bytes.ofString "app", .file 0 0o644 (Bytes.ofString "ok\n").toByteArray)]

set_option maxRecDepth 100000 in
/-- The archive of a file of three bytes is reported to hold one file of three bytes. -/
theorem small_cargo_weighed :
    (Machine.small [("tree", .dir smallCargo)]).disk.root.WellFormed ∧
    (write (.ofString "/tree") (.ofString "/out.zip") none).Ends (answer (.small []))
      (.small [("tree", .dir smallCargo)]) fun r _ m' => ∃ summary, r = .ok summary ∧ ∀ limits,
        (check (.ofString "/out.zip") limits).Ends (answer (.small [])) m' fun r' _ _ => ∃ found,
          r' = .ok found ∧ found.zippedBytes = summary.bytes ∧ found.entries = summary.files ∧
            found.unzippedBytes = 3 := by
  have wf : (Machine.small [("tree", .dir smallCargo)]).disk.root.WellFormed := by decide +kernel
  have written : (write (.ofString "/tree") (.ofString "/out.zip") none).Ends (answer (.small []))
      (.small [("tree", .dir smallCargo)]) fun r _ m' => (r.toOption.any fun s => s.bytes < Zip.sizeLimit) ∧
        (m'.disk.resolve m'.cwd true (.ofString "/out.zip")).toOption.isSome := by
    unfold Ends
    decide +kernel
  have root : (Machine.small [("tree", .dir smallCargo)]).disk.resolve [] true (.ofString "/tree") =
      .ok ([Bytes.ofString "tree"], .dir smallCargo) := by decide +kernel
  refine ⟨wf, (written.and (written_archive_weighed wf _ _ none (.small []))).mono ?_⟩
  rintro (stop | summary) _ m' ⟨⟨small, there⟩, weighed⟩
  · cases small
  obtain ⟨_, _, entries, hroot, stored, fitting, checked⟩ := weighed summary rfl
  cases root.symm.trans hroot
  have size : (Zip.encode entries).size < Zip.sizeLimit := by
    rw [stored.measures.1]
    exact of_decide_eq_true small
  have fits := stored.packs.fits (by decide +kernel) (by decide +kernel) (by decide +kernel) size
  have weight : (Node.dir smallCargo).weight = 3 := by decide +kernel
  refine ⟨summary, rfl, fun limits => ((checked (fitting fits) limits (.small [])).1).mono ?_⟩
  rintro _ _ _ ((⟨found, rfl, tells⟩ | ⟨_, _, ⟨_, -, fault⟩, -⟩) | ⟨lost, -⟩)
  · have unzipped := tells.unzipped (by rw [weight]; decide)
    exact ⟨found, rfl, tells.zipped, tells.entries, unzipped.trans weight⟩
  · cases fault
  · cases hr : m'.disk.resolve m'.cwd true (.ofString "/out.zip") with
    | error e =>
      rw [hr] at there
      cases there
    | ok found => exact (lost found hr).elim

end Archive

end LayerPack
