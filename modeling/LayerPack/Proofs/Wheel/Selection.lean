import LayerPack.Proofs.Disk.Bare
import LayerPack.Proofs.Disk.Filed
import LayerPack.Proofs.Machine.Finding
import LayerPack.Proofs.Settings.Acceptance
import LayerPack.Proofs.Wheel.Belonging

/-! Which wheel is selected. In a directory whose path is text, the wheels of a project are the regular
files with names of such wheels. If there is one of them it is selected, and if there is another number
of them the failure tells what is there. Nothing else in the directory counts where there is one, nor
the order in which the directory is listed. -/
namespace LayerPack

open Program Machine

variable {k : Kinship} {asked : Call → Prop} {o : Outside} {m : Machine} {names : List Name}
  {dist : Path} {project : String}

theorem Path.fileName?_child {p : Path} {name : Name} (hn : ProperName name) :
    (p.child name).fileName? = some name := by
  rw [Path.fileName?, Path.components_child p hn, List.getLast?_concat]

/-- The children of a path are ordered as their names. -/
theorem Path.le_child {p : Path} {a b : Name} (ha : ProperName a) (hb : ProperName b) :
    (p.child a).le (p.child b) = Bytes.le a b := by
  rw [Path.le, components_child p ha, components_child p hb]
  induction p.components with
  | nil =>
    by_cases h : a = b
    · simp [leComponents, h, Bytes.le_refl]
    · simp [leComponents, h, Component.le]
  | cons c rest ih => simpa [leComponents] using ih

/-- One step down by a name from a path of names, which is not the current directory. -/
theorem Path.step_ofNames {name : Name} (h : ∀ n ∈ names ++ [name], ProperName n) :
    (ofNames names).components ≠ [.current] ∧ (ofNames names).child name = ofNames (names ++ [name]) := by
  have hn : ProperName name := h name (by simp)
  have proper : ∀ n ∈ names, ProperName n := fun n hm => h n (List.mem_append_left _ hm)
  refine ⟨by simp [components_ofNames proper], ?_⟩
  by_cases hne : names = []
  · rw [hne, child, join, isAbsolute_name hn]
    rfl
  · exact child_ofNames proper hne hn

namespace Disk

variable {d : Disk} {cwd : Place} {dir : Path}

/-- The names in a directory; where nothing is, there are none. -/
def namesIn (d : Disk) (cwd : Place) (dir : Path) : List Name := (d.list cwd dir).toOption.getD []

/-- The path leads to a directory, or nothing is there. -/
def Listable (d : Disk) (cwd : Place) (dir : Path) : Prop :=
  d.kind? cwd true dir = some .dir ∨ d.resolve cwd true dir = .error .noEntry

theorem list_eq_ok (h : d.kind? cwd true dir = some .dir) :
    d.list cwd dir = .ok (d.namesIn cwd dir) := by
  obtain ⟨place, es, hr⟩ := kind?_eq_dir.mp h
  have listed : d.list cwd dir = .ok (es.map (·.1)) := by
    rw [list, hr]
    rfl
  rw [namesIn, listed]
  rfl

theorem list_of_missing (h : d.resolve cwd true dir = .error .noEntry) :
    d.list cwd dir = .error .noEntry := by
  rw [list, h]
  rfl

theorem namesIn_of_not_dir (h : d.kind? cwd true dir ≠ some .dir) : d.namesIn cwd dir = [] := by
  rw [namesIn, list]
  rcases hr : d.resolve cwd true dir with e | ⟨place, node⟩
  · rfl
  · cases node with
    | file | link => rfl
    | dir es => exact (h (kind?_eq_dir.mpr ⟨place, es, hr⟩)).elim

theorem namesIn_of_missing (h : d.resolve cwd true dir = .error .noEntry) :
    d.namesIn cwd dir = [] :=
  namesIn_of_not_dir fun hd => by
    rw [kind?, h] at hd
    cases hd

theorem namesIn_facts (wf : d.root.WellFormed) :
    (d.namesIn cwd dir).Nodup ∧ ∀ name ∈ d.namesIn cwd dir, ProperName name := by
  unfold namesIn list
  rcases hr : d.resolve cwd true dir with e | ⟨place, node⟩
  · exact ⟨List.nodup_nil, fun _ h => by cases h⟩
  cases node with
  | file | link => exact ⟨List.nodup_nil, fun _ h => by cases h⟩
  | dir es =>
    cases wf.get? (lookup_sound (resolve_ok.mp hr)) with
    | dir nodup proper inner =>
      refine ⟨nodup, fun name hn => ?_⟩
      obtain ⟨e, he, rfl⟩ := List.mem_map.mp hn
      exact proper e he

end Disk

namespace Wheel

/-- The name of a wheel of the project that stands in the directory itself, of a regular file or of a
link to one. -/
structure Member (d : Disk) (cwd : Place) (dist : Path) (project : String) (name : Name) : Prop where
  listed : name ∈ d.namesIn cwd dist
  named : Named project name
  file : d.kind? cwd true (dist.child name) = some .file

/-- What the program asks of the names in a directory tells which they are. -/
theorem member_iff {d : Disk} {cwd : Place} (wf : d.root.WellFormed) {name : Name} :
    Member d cwd dist project name ↔ name ∈ (d.namesIn cwd dist).filter fun name =>
      (isWheelName name && (Bytes.toText? name).isSome) &&
        (decide (d.kind? cwd true (dist.child name) = some .file) &&
          belongsTo project (dist.child name)) := by
  have hn (listed : name ∈ d.namesIn cwd dist) : (dist.child name).fileName? = some name :=
    Path.fileName?_child ((Disk.namesIn_facts wf).2 name listed)
  simp only [List.mem_filter, Bool.and_eq_true, decide_eq_true_eq]
  constructor
  · rintro ⟨listed, named, file⟩
    obtain ⟨wheel, text, belongs⟩ := (named_iff (hn listed)).mp named
    exact ⟨listed, ⟨wheel, text⟩, file, belongs⟩
  · rintro ⟨listed, ⟨wheel, text⟩, file, belongs⟩
    exact ⟨listed, (named_iff (hn listed)).mpr ⟨wheel, text, belongs⟩, file⟩

/-- The names in a directory, in their order, that are text and end as those of wheels do. -/
def wheelNames (d : Disk) (cwd : Place) (dist : Path) : List Name :=
  ((d.namesIn cwd dist).mergeSort Bytes.le).filter fun name =>
    isWheelName name && (Bytes.toText? name).isSome

/-- Those of them that belong to the project, in their order. -/
def members (d : Disk) (cwd : Place) (dist : Path) (project : String) : List Name :=
  (wheelNames d cwd dist).filter fun name =>
    decide (d.kind? cwd true (dist.child name) = some .file) && belongsTo project (dist.child name)

theorem mem_members {d : Disk} {cwd : Place} (wf : d.root.WellFormed) {name : Name} :
    name ∈ members d cwd dist project ↔ Member d cwd dist project name := by
  rw [member_iff wf]
  simp only [members, wheelNames, List.mem_filter, List.mem_mergeSort, Bool.and_eq_true, and_assoc]

theorem properName_of_mem_members {d : Disk} {cwd : Place} (wf : d.root.WellFormed) {name : Name}
    (h : name ∈ members d cwd dist project) : ProperName name :=
  (Disk.namesIn_facts wf).2 name ((mem_members wf).mp h).listed

/-- One name comes before another. -/
def Earlier (a b : Name) : Prop := a ≠ b ∧ Bytes.le a b = true

theorem pairwise_members {d : Disk} {cwd : Place} (wf : d.root.WellFormed) :
    (members d cwd dist project).Pairwise Earlier := by
  have sorted : ((d.namesIn cwd dist).mergeSort Bytes.le).Pairwise fun a b => Bytes.le a b = true :=
    @List.pairwise_mergeSort _ Bytes.le (fun _ _ _ => Bytes.le_trans) Bytes.le_total _
  have nodup : ((d.namesIn cwd dist).mergeSort Bytes.le).Nodup :=
    (List.mergeSort_perm _ _).nodup_iff.mpr (Disk.namesIn_facts wf).1
  exact ((nodup.and sorted).filter _).filter _

/-- They stand in their order as paths too. -/
theorem mergeSort_members {d : Disk} {cwd : Place} (wf : d.root.WellFormed) :
    ((members d cwd dist project).map dist.child).mergeSort Path.le =
      (members d cwd dist project).map dist.child := by
  refine List.mergeSort_of_pairwise (List.pairwise_map.mpr ?_)
  refine (pairwise_members wf).imp_of_mem fun ha hb before => ?_
  rw [Path.le_child (properName_of_mem_members wf ha) (properName_of_mem_members wf hb)]
  exact before.2

section

variable (steady : o.Steady k asked)

include steady

/-- What a path leads to is there. -/
theorem isThere_finds (d : Disk) (cwd : Place) (p : Path) : ∃ there,
    (∀ m : Machine, m.disk = d → m.cwd = cwd → (isThere p).Finds o k m there) ∧
      ((∃ found, d.resolve cwd true p = .ok found) → there = true) := by
  cases hs : d.stat cwd true p with
  | ok status =>
    refine ⟨true, ?_, fun _ => rfl⟩
    rintro m rfl rfl
    have found := finds_stat steady (m := m) true p
    rw [hs] at found
    exact Finds.bind found fun _ _ _ => finds_done _
  | error e =>
    refine ⟨(d.stat cwd false p).isOk, ?_, fun ⟨found, hr⟩ => ?_⟩
    · rintro m rfl rfl
      have missed := finds_stat steady (m := m) true p
      rw [hs] at missed
      refine Finds.bind missed fun n lapsed disk => ?_
      have found := finds_stat steady (m := n) false p
      rw [disk, lapsed.cwd] at found
      refine Finds.bind found fun _ _ _ => ?_
      cases m.disk.stat m.cwd false p <;> exact finds_done _
    · rw [Disk.stat, hr] at hs
      cases hs

/-- Going down by names comes to the path of all of them if they lead to a directory, and nowhere else. -/
theorem descend_finds (d : Disk) (cwd : Place) (front : List Name) (texts : List String)
    (proper : ∀ n ∈ front ++ texts.map Bytes.ofString, ProperName n) : ∃ found,
    (∀ m : Machine, m.disk = d → m.cwd = cwd → (descend (.ofNames front) texts).Finds o k m found) ∧
      (found = none ∨ found = some (.ofNames (front ++ texts.map Bytes.ofString))) ∧
      ((∃ place, d.LeadsTo (.ofNames (front ++ texts.map Bytes.ofString)) place) →
        found = some (.ofNames (front ++ texts.map Bytes.ofString))) := by
  induction texts generalizing front with
  | nil => exact ⟨_, fun _ _ _ => finds_done _, by simp, by simp⟩
  | cons part rest ih =>
    have hn : ProperName (Bytes.ofString part) := proper _ (by simp)
    have notDots : ¬ (part = "." ∨ part = "..") := by
      rintro (rfl | rfl)
      · exact hn.notDot (by decide)
      · exact hn.notDotdot (by decide)
    have split : front ++ (part :: rest).map Bytes.ofString =
        front ++ [Bytes.ofString part] ++ rest.map Bytes.ofString := by simp
    rw [split] at proper ⊢
    obtain ⟨notHere, next⟩ := Path.step_ofNames fun n hn => proper n (List.mem_append_left _ hn)
    obtain ⟨there, look, sure⟩ := isThere_finds steady d cwd (.ofNames (front ++ [Bytes.ofString part]))
    obtain ⟨found, go, only, comes⟩ := ih (front ++ [Bytes.ofString part]) proper
    refine ⟨if there then found else none, fun m disk cwd => ?_, ?_, fun ⟨place, leads⟩ => ?_⟩
    · have next : (Path.ofNames front).join (.ofString part) = _ := next
      rw [descend, if_neg notHere, if_neg notDots, next]
      refine Finds.bind (look m disk cwd) fun n lapsed disk' => ?_
      cases there with
      | false => exact finds_done _
      | true => exact go n (disk'.trans disk) (lapsed.cwd.trans cwd)
    · cases there with
      | false => exact .inl rfl
      | true => exact only
    · obtain ⟨dest, up, -⟩ := (Disk.extends_ofNames proper).leadsTo (Path.isAbsolute_ofNames _) leads
      obtain ⟨es, hr⟩ := up
      rw [sure ⟨_, (Disk.resolve_absolute (Path.isAbsolute_ofNames _) cwd []).trans hr⟩]
      exact comes ⟨place, leads⟩

omit steady in
/-- The text of a path is cut into the texts of its names, or into one that is empty for the root. -/
theorem scanned_eq {text : String} (ht : Path.ofNames names = .ofString text) :
    ∃ texts : List String, scanned (.ofNames names) = descend (.ofNames []) texts ∧
        texts.map Bytes.ofString = splitSlash (joinSlash names) := by
  have hb : slash :: joinSlash names = Bytes.ofString text := congrArg Path.bytes ht
  have parts : (Text.splitAll '/' (text ++ "/").toList).map (Bytes.ofString ∘ String.ofList) =
      [] :: (splitSlash (joinSlash names) ++ [[]]) := by
    have hs : Bytes.ofString "/" = [slash] := by decide
    rw [← Bytes.splitSlash_ofString, Bytes.ofString_append, ← hb, hs, splitSlash_append_slash,
      splitSlash_slash]
    rfl
  obtain ⟨first, rest, hsplit, hfirst, hrest⟩ := List.map_eq_cons_iff.mp parts
  obtain ⟨body, last, rfl, hbody, hlast⟩ := List.map_eq_append_iff.mp hrest
  obtain ⟨last, rfl, -⟩ := List.map_eq_singleton_iff.mp hlast
  obtain rfl : first = [] := by
    have empty : String.ofList first = "" := Bytes.ofString_injective (hfirst.trans (by decide))
    simpa using congrArg String.toList empty
  refine ⟨body.map String.ofList, ?_, by rw [List.map_map]; exact hbody⟩
  have display : (Path.ofNames names).display = text := by
    rw [ht]
    exact Bytes.display_ofString text
  rw [scanned, display, hsplit]
  dsimp only
  rw [List.dropLast_concat]
  rfl

theorem scanned_finds (d : Disk) (cwd : Place) (proper : ∀ n ∈ names, ProperName n) {text : String}
    (ht : Path.ofNames names = .ofString text) : ∃ found,
    (∀ m : Machine, m.disk = d → m.cwd = cwd → (scanned (.ofNames names)).Finds o k m found) ∧
      (found = none ∨ found = some (.ofNames names)) ∧
      ((∃ place, d.LeadsTo (.ofNames names) place) → found = some (.ofNames names)) := by
  obtain ⟨texts, hscan, hparts⟩ := scanned_eq ht
  rw [hscan]
  by_cases hne : names = []
  · subst hne
    obtain ⟨part, rfl, hpart⟩ := List.map_eq_singleton_iff.mp hparts
    obtain rfl : part = "" := Bytes.ofString_injective (hpart.trans (by decide))
    have here : (Path.ofNames []).join (.ofString "") = .ofNames [] := by decide
    obtain ⟨there, look, sure⟩ := isThere_finds steady d cwd (.ofNames [])
    refine ⟨if there then some (.ofNames []) else none, fun m disk cwd => ?_, ?_, fun ⟨_, es, hr⟩ => ?_⟩
    · rw [descend, if_neg (by decide), if_neg (by decide), here]
      refine Finds.bind (look m disk cwd) fun n _ _ => ?_
      cases there <;> exact finds_done _
    · cases there <;> simp
    · rw [sure ⟨_, (Disk.resolve_absolute (Path.isAbsolute_ofNames _) cwd []).trans hr⟩]
      rfl
  · rw [splitSlash_joinSlash hne fun n hn => (proper n hn).noSlash] at hparts
    have found := descend_finds steady d cwd [] texts
    rw [List.nil_append, hparts] at found
    exact found proper

/-- The wheels in a directory are found in their order. -/
theorem candidates_finds (proper : ∀ n ∈ names, ProperName n) {text : String}
    (ht : Path.ofNames names = .ofString text) :
    (candidates (.ofNames names)).Finds o k m
      (.ok ((wheelNames m.disk m.cwd (.ofNames names)).map (Path.ofNames names).child)) := by
  obtain ⟨found, look, only, comes⟩ := scanned_finds steady m.disk m.cwd proper ht
  refine Finds.bind (look m rfl rfl) fun n lapsed disk => ?_
  have isDir := finds_kindIs steady (m := n) .dir (.ofNames names)
  rw [disk, lapsed.cwd] at isDir
  by_cases dir : m.disk.kind? m.cwd true (.ofNames names) = some .dir
  · obtain ⟨place, es, hr⟩ := Disk.kind?_eq_dir.mp dir
    rw [comes ⟨place, Disk.leadsTo_of_resolve (Path.isAbsolute_ofNames _) hr⟩]
    rw [decide_eq_true dir] at isDir
    refine Finds.bind isDir fun n' lapsed' disk' => ?_
    have listed := finds_list steady (m := n') (.ofNames names)
    rw [disk', lapsed'.cwd, disk, lapsed.cwd, Disk.list_eq_ok dir] at listed
    refine Finds.bind listed fun _ _ _ => ?_
    have notHere : (Path.ofNames names).components ≠ [.current] := by
      simp [Path.components_ofNames proper]
    simp only [if_neg notHere]
    exact finds_done _
  · rw [wheelNames, Disk.namesIn_of_not_dir dir, List.mergeSort_nil]
    rw [decide_eq_false dir] at isDir
    rcases only with rfl | rfl
    · exact finds_done _
    · exact Finds.bind isDir fun _ _ _ => finds_done _

theorem matching_finds (d : Disk) (cwd : Place) (project : String) (found : List Path) (m : Machine)
    (hd : m.disk = d) (hc : m.cwd = cwd) : (matching project found).Finds o k m
      (found.filter fun p => decide (d.kind? cwd true p = some .file) && belongsTo project p) := by
  induction found generalizing m with
  | nil => exact finds_done _
  | cons p rest ih =>
    have file := finds_kindIs steady (m := m) .file p
    rw [hd, hc] at file
    refine Finds.bind file fun n lapsed disk => ?_
    have later (n' : Machine) (lapsed' : Lapsed k n n') (disk' : n'.disk = n.disk) :=
      ih n' (disk'.trans (disk.trans hd)) (lapsed'.cwd.trans (lapsed.cwd.trans hc))
    rw [List.filter_cons]
    cases decide (d.kind? cwd true p = some .file) with
    | false => exact later n (.refl n) rfl
    | true =>
      cases belongsTo project p with
      | false => exact Finds.bind (finds_log steady _ _) later
      | true =>
        exact Finds.bind (finds_log steady _ _) fun n' lapsed' disk' =>
          Finds.bind (later n' lapsed' disk') fun _ _ _ => finds_done _

/-- The names in a directory are told as text in their order. -/
theorem listNames_finds {d : Disk} {cwd : Place} (listable : d.Listable cwd dist) (m : Machine)
    (hd : m.disk = d) (hc : m.cwd = cwd) : (Files.listNames dist).Finds o k m
      (.ok (((d.namesIn cwd dist).map Bytes.display).mergeSort Toml.keyLe)) := by
  have listed := finds_list steady (m := m) dist
  rw [hd, hc] at listed
  rcases listable with dir | missing
  · rw [Disk.list_eq_ok dir] at listed
    exact Finds.bind listed fun _ _ _ => finds_done _
  · rw [Disk.list_of_missing missing] at listed
    rw [Disk.namesIn_of_missing missing, List.map_nil, List.mergeSort_nil]
    exact Finds.bind listed fun _ _ _ => finds_done _

/-- What comes of the wheels of a project in a directory with these contents. -/
def outcome (dist : Path) (project : String) (found contents : List Name) : Except Stop Wheel :=
  match found with
  | [name] => .ok ⟨dist.child name, Bytes.display name⟩
  | [] => .error (.failed (.noWheel project dist ((contents.map Bytes.display).mergeSort Toml.keyLe)))
  | several => .error (.failed (.ambiguousWheel project dist (several.map dist.child)))

/-- Which wheels are found where the text of a path leads decides the selection. -/
theorem select_finds_picked (wf : m.disk.root.WellFormed) (proper : ∀ n ∈ names, ProperName n)
    {text : String} (ht : Path.ofNames names = .ofString text)
    (leads : candidates dist = candidates (.ofNames names)) {r : Except Stop Wheel}
    (picks : ∀ n, Lapsed k m n → n.disk = m.disk → (picked dist project
      ((members m.disk m.cwd (.ofNames names) project).map (Path.ofNames names).child) none).Finds
        o k n r) :
    (select dist project none).Finds o k m r := by
  rw [select_eq, leads]
  refine Finds.work_bind ((candidates_finds steady proper ht).now none) fun n lapsed disk => ?_
  refine Finds.work_bind (finds_done _) fun n₁ lapsed₁ disk₁ => ?_
  have matched := matching_finds steady m.disk m.cwd project
    ((wheelNames m.disk m.cwd (.ofNames names)).map (Path.ofNames names).child) n₁
    (disk₁.trans disk) (lapsed₁.cwd.trans lapsed.cwd)
  rw [List.filter_map] at matched
  change (matching project _).Finds o k n₁
    ((members m.disk m.cwd (.ofNames names) project).map (Path.ofNames names).child) at matched
  refine Finds.work_bind (matched.now none) fun n₂ lapsed₂ disk₂ => ?_
  rw [mergeSort_members wf]
  exact picks n₂ (lapsed.trans (lapsed₁.trans lapsed₂)) (disk₂.trans (disk₁.trans disk))

omit steady in
theorem ofPath_child {name : Name} (hn : ProperName name) :
    ofPath (dist.child name) = ⟨dist.child name, Bytes.display name⟩ := by
  rw [ofPath, Path.fileName?_child hn]
  rfl

theorem select_finds (wf : m.disk.root.WellFormed) (proper : ∀ n ∈ names, ProperName n)
    {text : String} (ht : Path.ofNames names = .ofString text)
    (listable : m.disk.Listable m.cwd (.ofNames names)) :
    (select (.ofNames names) project none).Finds o k m
      (outcome (.ofNames names) project (members m.disk m.cwd (.ofNames names) project)
        (m.disk.namesIn m.cwd (.ofNames names))) := by
  refine select_finds_picked steady wf proper ht rfl fun n lapsed disk => ?_
  rcases hm : members m.disk m.cwd (.ofNames names) project with _ | ⟨name, _ | ⟨other, more⟩⟩
  · have awaited : (Work.await (Files.listNames (.ofNames names)) none).Finds o k n (.ok (.ok
        (((m.disk.namesIn m.cwd (.ofNames names)).map Bytes.display).mergeSort Toml.keyLe))) := by
      refine Does.await steady (fun _ h => by cases h) fun n' lapsed' disk' => ?_
      have listed := listNames_finds steady listable n' (disk'.trans disk) (lapsed'.cwd.trans lapsed.cwd)
      rwa [Finds, disk'] at listed
    exact Finds.work_bind awaited fun _ _ _ => finds_done _
  · have hn : ProperName name := properName_of_mem_members wf (hm ▸ List.mem_singleton_self name)
    rw [outcome, ← ofPath_child hn]
    exact finds_done _
  · exact finds_done _

end

/-- What is said of a selection: it succeeds with a wheel if this is the only one of the project, and else
it tells what is in the directory, or which wheels of the project there are. -/
structure Selects (d : Disk) (cwd : Place) (dist : Path) (project : String) (r : Except Stop Wheel) :
    Prop where
  one : ∀ wheel, r = .ok wheel ↔ ∃ name, (∀ other, Member d cwd dist project other ↔ other = name) ∧
    wheel.path = dist.child name ∧ Bytes.ofString wheel.fileName = name
  none : (∀ name, ¬ Member d cwd dist project name) → ∃ contents : List String,
    contents.Perm ((d.namesIn cwd dist).map Bytes.display) ∧
      contents.Pairwise (fun a b => Bytes.le (.ofString a) (.ofString b)) ∧
      r = .error (.failed (.noWheel project dist contents))
  several : ∀ a b, a ≠ b → Member d cwd dist project a → Member d cwd dist project b →
    ∃ found : List Name, (∀ name, name ∈ found ↔ Member d cwd dist project name) ∧
      found.Pairwise Earlier ∧ r = .error (.failed (.ambiguousWheel project dist (found.map dist.child)))

theorem outcome_selects {d : Disk} {cwd : Place} (wf : d.root.WellFormed) :
    Selects d cwd dist project
      (outcome dist project (members d cwd dist project) (d.namesIn cwd dist)) := by
  have mem {name : Name} : name ∈ members d cwd dist project ↔ Member d cwd dist project name :=
    mem_members wf
  have earlier : (members d cwd dist project).Pairwise Earlier := pairwise_members wf
  generalize members d cwd dist project = found at mem earlier
  rcases found with _ | ⟨name, _ | ⟨other, more⟩⟩
  case nil =>
    refine ⟨fun wheel => iff_of_false (by simp [outcome]) ?_, fun _ => ?_, fun a _ _ ha => ?_⟩
    · rintro ⟨name, unique, -⟩
      cases mem.mpr ((unique name).mpr rfl)
    · refine ⟨_, List.mergeSort_perm _ Toml.keyLe, ?_, rfl⟩
      exact @List.pairwise_mergeSort _ Toml.keyLe (fun _ _ _ => Bytes.le_trans)
        (fun _ _ => Bytes.le_total _ _) _
    · cases mem.mpr ha
  case cons.nil =>
    have member : Member d cwd dist project name := mem.mp (by simp)
    have written : Bytes.ofString (Bytes.display name) = name := by
      obtain ⟨before, after, rfl, -⟩ := member.named
      rw [Bytes.display_ofString]
    refine ⟨fun wheel => ⟨?_, ?_⟩, fun none => (none name member).elim, fun a b hne ha hb => ?_⟩
    · rintro ⟨⟩
      exact ⟨name, fun other => mem.symm.trans List.mem_singleton, rfl, written⟩
    · rintro ⟨name', unique, hp, hf⟩
      obtain rfl := (unique name).mp member
      obtain ⟨path, fileName⟩ := wheel
      obtain rfl : path = dist.child name := hp
      obtain rfl : fileName = Bytes.display name := Bytes.ofString_injective (hf.trans written.symm)
      rfl
    · have same {n : Name} (h : Member d cwd dist project n) : n = name :=
        List.mem_singleton.mp (mem.mpr h)
      exact (hne ((same ha).trans (same hb).symm)).elim
  case cons.cons =>
    have first : Member d cwd dist project name := mem.mp (by simp)
    have second : Member d cwd dist project other := mem.mp (by simp)
    refine ⟨fun wheel => iff_of_false (by simp [outcome]) ?_, fun none => (none name first).elim,
      fun _ _ _ _ _ => ⟨_, fun _ => mem, earlier, rfl⟩⟩
    rintro ⟨only, unique, -⟩
    have hne : name ≠ other := (List.rel_of_pairwise_cons earlier List.mem_cons_self).1
    exact hne (((unique name).mp first).trans ((unique other).mp second).symm)

/-- Names that stand in their order are given by which they are. -/
theorem eq_of_earlier {found found' : List Name} (h : found.Pairwise Earlier)
    (h' : found'.Pairwise Earlier) (mem : ∀ name, name ∈ found ↔ name ∈ found') : found = found' := by
  have nodup {l : List Name} (h : l.Pairwise Earlier) : l.Nodup := h.imp And.left
  exact ((List.perm_ext_iff_of_nodup (nodup h) (nodup h')).mpr mem).eq_of_pairwise
    (fun _ _ _ _ before after => Bytes.le_antisymm before.2 after.2) h h'

/-- The same wheels give the same outcome, if there are any or the same names are listed. -/
theorem outcome_congr {found contents contents' : List Name}
    (h : found ≠ [] ∨ contents'.Perm contents) :
    outcome dist project found contents' = outcome dist project found contents := by
  rcases found with _ | ⟨name, _ | ⟨other, more⟩⟩
  · have perm := h.resolve_left fun h => h rfl
    have sorted : (contents'.map Bytes.display).mergeSort Toml.keyLe =
        (contents.map Bytes.display).mergeSort Toml.keyLe :=
      mergeSort_of_perm (perm.map _) fun _ _ _ _ => Bytes.ofString_injective
    rw [outcome, outcome, sorted]
  · rfl
  · rfl

/-- From a directory of wheels whose path is plain text, the one wheel of the project is selected. Which it
is depends on nothing else in the directory, and nothing depends on the order in which it is listed. -/
theorem select_one (plain : dist.Plain) (text : ∃ text, dist = .ofString text)
    (sound : ∀ n, o.fault n = none) (wf : m.disk.root.WellFormed)
    (listable : m.disk.Listable m.cwd dist) :
    (Selects m.disk m.cwd dist project (Machine.run o (select dist project none) m).1 ∧
      (Machine.run o (select dist project none) m).2.disk = m.disk) ∧
    ∀ (o' : Outside) (m' : Machine), (∀ n, o'.fault n = none) → m'.disk.root.WellFormed →
      m'.disk.Listable m'.cwd dist →
      (∀ name, Member m'.disk m'.cwd dist project name ↔ Member m.disk m.cwd dist project name) →
      ((∃ name, Member m.disk m.cwd dist project name) ∨
        (m'.disk.namesIn m'.cwd dist).Perm (m.disk.namesIn m.cwd dist)) →
      (Machine.run o' (select dist project none) m').1 = (Machine.run o (select dist project none) m).1 := by
  obtain ⟨names, rfl, proper⟩ := plain
  obtain ⟨text, ht⟩ := text
  have selects {o : Outside} (sound : ∀ n, o.fault n = none) {m : Machine}
      (wf : m.disk.root.WellFormed) (listable : m.disk.Listable m.cwd (.ofNames names)) :=
    @select_finds _ _ _ _ _ project (Outside.steady_of_sound sound) wf proper _ ht listable
  obtain ⟨result, -, -, same⟩ := selects sound wf listable
  refine ⟨⟨?_, same⟩, fun o' m' sound' wf' listable' members contents => ?_⟩
  · unfold Machine.run
    rw [result]
    exact outcome_selects wf
  · obtain ⟨result', -⟩ := selects sound' wf' listable'
    unfold Machine.run
    rw [result, result', eq_of_earlier (pairwise_members wf') (pairwise_members wf) fun name =>
      (mem_members wf').trans ((members name).trans (mem_members wf).symm)]
    refine outcome_congr (contents.imp_left ?_)
    rintro ⟨name, member⟩ none
    have listed := (mem_members wf).mpr member
    rw [none] at listed
    cases listed

/-- A directory whose name is full of signs that stand for others in a pattern. -/
def patterned (entries : List (String × Node)) : Machine :=
  .small [("d[1]*?", .dir (entries.map fun e => (Bytes.ofString e.1, e.2)))]

/-- The wheel is selected next to that of another project, and next to a directory with its name. -/
theorem patterned_selects :
    let dist := Path.ofString "/d[1]*?"
    let wheel : String × Node := ("My.Small-1-py3-none-any.whl", .file 0 0o644 .empty)
    let m := patterned [wheel, ("other-1.whl", .file 1 0o644 .empty)]
    let m' := patterned [("my_small-2.whl", .dir []), wheel]
    let selected : Wheel := ⟨.ofString "/d[1]*?/My.Small-1-py3-none-any.whl", wheel.1⟩
    (Machine.run (.small []) (select dist "my-small" none) m).1 = .ok selected ∧
      (Machine.run (.small []) (select dist "my-small" none) m').1 = .ok selected := by
  intro dist wheel m m' selected
  have plain : dist.Plain := by
    refine ⟨[Bytes.ofString "d[1]*?"], by decide, fun name hn => ?_⟩
    exact List.mem_singleton.mp hn ▸ (by decide)
  have sound : ∀ n, (Outside.small []).fault n = none := fun _ => rfl
  have wf : m.disk.root.WellFormed := by decide +kernel
  have wf' : m'.disk.root.WellFormed := by decide +kernel
  have only (other : Name) :
      Member m.disk m.cwd dist "my-small" other ↔ other = Bytes.ofString wheel.1 := by
    rw [member_iff wf, ← List.mem_singleton]
    exact iff_of_eq (congrArg (other ∈ ·) (by decide +kernel))
  have only' (other : Name) :
      Member m'.disk m'.cwd dist "my-small" other ↔ other = Bytes.ofString wheel.1 := by
    rw [member_iff wf', ← List.mem_singleton]
    exact iff_of_eq (congrArg (other ∈ ·) (by decide +kernel))
  obtain ⟨⟨selects, -⟩, same⟩ := @select_one (.small []) m dist "my-small" plain ⟨_, rfl⟩ sound wf
    (.inl (by decide +kernel))
  have first := (selects.one selected).mpr ⟨_, only, by decide +kernel, rfl⟩
  refine ⟨first, (same (.small []) m' sound wf' (.inl (by decide +kernel)) (fun name => ?_) ?_).trans first⟩
  · rw [only, only']
  · exact .inl ⟨_, (only _).mpr rfl⟩

end Wheel

end LayerPack
