import LayerPack.Proofs.Pipeline.Requests
import LayerPack.Proofs.Wheel.Belonging
import LayerPack.Proofs.Wheel.Selection

/-! Where a wheel is looked for. A directory is scanned where the text of its path leads. That is the
directory itself exactly if its path is text; from any other one, the wheels of a directory are selected
in whose path replacement characters stand for what is not text. -/
namespace LayerPack

open Program Machine

variable {o : Outside} {m : Machine} {names : List Name} {dist : Path} {project : String}

/-! ### The text of a path -/

namespace Bytes

/-- Bytes that are read with replacement characters and written again. -/
def respelled (b : Bytes) : Bytes := ofString (String.ofList (decodeChars b))

theorem respelled_nil : respelled [] = [] := by
  rw [respelled, decodeChars]
  decide

theorem respelled_append_slash (a b : Bytes) :
    respelled (a ++ slash :: b) = respelled a ++ slash :: respelled b := by
  have hs : ofString (String.ofList ['/']) = [slash] := by decide
  rw [respelled, decodeChars_append_slash, ← List.singleton_append, String.ofList_append,
    String.ofList_append, ofString_append, ofString_append, hs]
  rfl

theorem respelled_joinSlash (names : List Name) :
    respelled (joinSlash names) = joinSlash (names.map respelled) := by
  induction names with
  | nil => exact respelled_nil
  | cons name rest ih =>
    cases rest with
    | nil => rfl
    | cons other rest =>
      change respelled (name ++ slash :: joinSlash (other :: rest)) = _
      rw [respelled_append_slash, ih]
      rfl

/-- Dots are read from dots only. -/
theorem decodeChars_eq_dots {b : Bytes} {n : Nat} (h : decodeChars b = List.replicate n '.') :
    b = List.replicate n 0x2E := by
  induction n generalizing b with
  | zero =>
    cases b with
    | nil => rfl
    | cons first rest =>
      rw [decodeChars_cons] at h
      cases h
  | succ n ih =>
    obtain ⟨first, rest, rfl, same, tail⟩ := eq_cons_of_decodeChars (by decide) (by decide) h
    obtain rfl : first = 0x2E := UInt8.toNat_inj.mp same
    rw [ih tail, List.replicate_succ]

theorem properName_respelled {name : Name} (h : ProperName name) : ProperName (respelled name) := by
  have dots {n : Nat} (other : name ≠ List.replicate n 0x2E) :
      respelled name ≠ ofString (String.ofList (List.replicate n '.')) := fun he =>
    other (decodeChars_eq_dots (String.ofList_injective (ofString_injective he)))
  refine ⟨dots (n := 0) h.nonempty, fun hs => h.noSlash (slash_mem_of_decodeChars ?_),
    dots (n := 1) h.notDot, dots (n := 2) h.notDotdot⟩
  simpa using slash_mem_of_ofString hs

end Bytes

namespace Path

variable {p : Path}

/-- The path that the text of a path leads to. -/
def shown (p : Path) : Path := .ofString p.display

theorem display_shown (p : Path) : p.shown.display = p.display := Bytes.display_ofString p.display

theorem shown_eq_iff : p.shown = p ↔ ∃ text, p = .ofString text := by
  refine ⟨fun h => ⟨p.display, h.symm⟩, ?_⟩
  rintro ⟨text, rfl⟩
  exact congrArg ofString (Bytes.display_ofString text)

/-- A plain path shows a plain path. -/
theorem Plain.shown (h : p.Plain) : p.shown.Plain := by
  obtain ⟨names, rfl, proper⟩ := h
  cases ht : Bytes.toText? (ofNames names).bytes with
  | some text =>
    have same : Path.ofNames names = .ofString text :=
      congrArg Path.mk (Bytes.ofString_of_toText? ht).symm
    exact ⟨names, shown_eq_iff.mpr ⟨text, same⟩, proper⟩
  | none =>
    refine ⟨names.map Bytes.respelled, ?_, fun name hn => ?_⟩
    · have spelled : (ofNames names).shown = ⟨Bytes.respelled ([] ++ slash :: joinSlash names)⟩ := by
        rw [Path.shown, display, Bytes.display, ht]
        rfl
      rw [spelled, Bytes.respelled_append_slash, Bytes.respelled_nil, Bytes.respelled_joinSlash]
      rfl
    · obtain ⟨name, hm, rfl⟩ := List.mem_map.mp hn
      exact Bytes.properName_respelled (proper name hm)

end Path

namespace Wheel

theorem candidates_shown (dist : Path) : candidates dist.shown = candidates dist := by
  unfold candidates scanned
  rw [Path.display_shown]

/-! ### Selection on a machine whose requests can fail -/

theorem kindIs_stands (kind : Kind) (p : Path) : (Files.kindIs kind p).Ends (answer o) m fun there _ n =>
    Same m n ∧ (there = true → m.disk.kind? m.cwd true p = some kind) := by
  refine Ends.and (same_run (Files.only_kindIs kind p) o m) ?_
  refine Ends.bind (M := fun r _ _ => ∀ status, r = .ok status → m.disk.stat m.cwd true p = .ok status)
    (fun status h => stat_ok h) fun r _ _ hr => ?_
  cases r with
  | error e => exact fun h => by cases h
  | ok status =>
    obtain ⟨place, node, hn, rfl⟩ := Disk.stat_ok (hr status rfl)
    intro there
    obtain rfl : node.stat.kind = kind := of_decide_eq_true there
    rw [Disk.kind?, hn]
    cases node <;> rfl

/-- Going down by names comes to the path of all of them, or nowhere. -/
theorem descend_returns (front : List Name) (texts : List String)
    (proper : ∀ n ∈ front ++ texts.map Bytes.ofString, ProperName n) :
    (descend (.ofNames front) texts).Returns fun here =>
      ∀ p ∈ here, p = .ofNames (front ++ texts.map Bytes.ofString) := by
  induction texts generalizing front with
  | nil =>
    rintro p ⟨⟩
    simp
  | cons part rest ih =>
    have split : front ++ (part :: rest).map Bytes.ofString =
        front ++ [Bytes.ofString part] ++ rest.map Bytes.ofString := by simp
    rw [split] at proper ⊢
    obtain ⟨notHere, next⟩ := Path.step_ofNames fun n hn => proper n (List.mem_append_left _ hn)
    have next : (Path.ofNames front).join (.ofString part) = _ := next
    rw [descend, if_neg notHere, next]
    refine (returns_true _).bind fun found _ => ?_
    cases found with
    | false => exact fun _ h => by cases h
    | true => exact ih _ proper

theorem scanned_returns (plain : dist.Plain) :
    (scanned dist).Returns fun here => ∀ p ∈ here, p = dist.shown := by
  obtain ⟨names, hs, proper⟩ := plain.shown
  obtain ⟨texts, scans, parts⟩ := scanned_eq hs.symm
  have same : scanned dist = scanned dist.shown := by
    unfold scanned
    rw [Path.display_shown]
  rw [same, hs, scans]
  by_cases hne : names = []
  · subst hne
    obtain ⟨part, rfl, hpart⟩ := List.map_eq_singleton_iff.mp parts
    obtain rfl : part = "" := Bytes.ofString_injective (hpart.trans (by decide))
    refine (returns_true _).bind fun found _ => ?_
    cases found with
    | false => exact fun _ h => by cases h
    | true =>
      rintro p ⟨⟩
      decide
  · rw [splitSlash_joinSlash hne fun n hn => (proper n hn).noSlash] at parts
    have returns := descend_returns [] texts
    rw [List.nil_append, parts] at returns
    exact returns proper

/-- The candidates stand in the directory that is shown. -/
theorem candidates_stand (plain : dist.Plain) :
    (candidates dist).Ends (answer o) m fun r _ n => Same m n ∧ ∀ found, r = .ok found →
      ∀ p ∈ found, ∃ name ∈ m.disk.namesIn m.cwd dist.shown, isWheelName name = true ∧
        p = dist.shown.child name := by
  refine Ends.and (same_run (only_candidates dist) o m) ?_
  refine Ends.bind (M := fun here _ n => Same m n ∧ ∀ p ∈ here, p = dist.shown)
    (Ends.and (same_run (only_scanned dist) o m) ((scanned_returns plain).run (answer o) m))
    fun here es n ⟨same, hs⟩ => ?_
  cases here with
  | none =>
    rintro _ ⟨⟩ _ ⟨⟩
  | some here =>
    obtain rfl := hs here rfl
    refine Ends.bind (M := fun _ _ n => Same m n)
      (same.trans (same_run (Files.only_kindIs .dir dist.shown) o n)) fun there _ n' same' => ?_
    cases there with
    | false =>
      rintro _ ⟨⟩ _ ⟨⟩
    | true =>
      refine Ends.bind (M := fun r _ _ => ∀ names, r = .ok names →
        m.disk.list m.cwd dist.shown = .ok names) (fun names h => ?_) fun r _ _ hr => ?_
      · have listed := list_ok h
        rwa [same'.disk, same'.cwd] at listed
      · cases r with
        | error e => exact fun _ h => by cases h
        | ok listed =>
          have names : m.disk.namesIn m.cwd dist.shown = listed := by
            rw [Disk.namesIn, hr listed rfl]
            rfl
          have notHere : dist.shown.components ≠ [.current] := by
            rw [plain.shown.spells.components]
            simp
          rintro _ ⟨⟩ p hp
          obtain ⟨name, hm, rfl⟩ := List.mem_map.mp hp
          obtain ⟨hm, wheel⟩ := List.mem_filter.mp hm
          rw [Bool.and_eq_true] at wheel
          exact ⟨name, names ▸ List.mem_mergeSort.mp hm, wheel.1, if_neg notHere⟩

/-- The wheels that are kept are files. -/
theorem matching_stand (d : Disk) (cwd : Place) (project : String) (found : List Path) (m : Machine)
    (hd : m.disk = d) (hc : m.cwd = cwd) : (matching project found).Ends (answer o) m
      fun matched _ _ => ∀ p ∈ matched, d.kind? cwd true p = some .file := by
  induction found generalizing m with
  | nil =>
    rintro _ ⟨⟩
  | cons p rest ih =>
    refine Ends.bind (kindIs_stands .file p) fun there _ n ⟨same, file⟩ => ?_
    have later (n' : Machine) (same' : Same n n') := ih n' ((same.trans same').disk.trans hd)
      ((same.trans same').cwd.trans hc)
    cases there with
    | false => exact later n (.refl n)
    | true =>
      rw [hd, hc] at file
      change Ends _ (if belongsTo project p then _ else _) _ _
      split
      · refine Ends.bind (M := fun _ _ n' => Same n n') (same_log _ _) fun _ _ n' same' => ?_
        refine Ends.bind (p := matching project rest) (later n' same') fun matched _ _ h q hq => ?_
        rcases List.mem_cons.mp hq with rfl | hq
        · exact file rfl
        · exact h q hq
      · exact Ends.bind (M := fun _ _ n' => Same n n') (same_log _ _) fun _ _ n' same' => later n' same'

/-- A selected wheel is a wheel of the project in the directory that is shown. -/
theorem select_stands (plain : dist.Plain) (wf : m.disk.root.WellFormed) (deadline : Option Nat) :
    (select dist project deadline).Ends (answer o) m fun r _ _ => ∀ wheel, r = .ok wheel →
      ∃ name, Member m.disk m.cwd dist.shown project name ∧ wheel.path = dist.shown.child name ∧
        Bytes.ofString wheel.fileName = name := by
  rw [select_eq]
  refine Work.ends_bind.mpr (Work.ends_now.mpr ((candidates_stand plain).mono ?_))
  rintro r es n ⟨same, candidates⟩
  refine Work.ends_bind.mpr (Work.ends_ofExcept.mpr ?_)
  cases r with
  | error e => exact fun _ h => by cases h
  | ok found =>
    have candidates := candidates found rfl
    refine Work.ends_bind.mpr (Work.ends_now.mpr ?_)
    refine (Ends.and (matching_stand m.disk m.cwd project found n same.disk same.cwd)
      (matching_belongs project found).ends).mono ?_
    rintro matched es' n' ⟨files, belongs⟩
    refine (picked_yields dist project _).ends.mono fun r _ _ picks wheel hr => ?_
    obtain ⟨p, hp, rfl⟩ := picks wheel hr
    have kept : p ∈ matched := List.mem_mergeSort.mp (hp ▸ List.mem_singleton_self p)
    obtain ⟨listed, hb⟩ := belongs p kept
    obtain ⟨name, hm, ends, rfl⟩ := candidates p listed
    have proper := (Disk.namesIn_facts wf).2 name hm
    have named := named_of_belongsTo (Path.fileName?_child proper) ends hb
    refine ⟨name, ⟨hm, named, files _ kept⟩, ?_⟩
    rw [ofPath_child proper]
    obtain ⟨before, after, rfl, -⟩ := named
    exact ⟨rfl, congrArg Bytes.ofString (Bytes.display_ofString _)⟩

/-- Where there is no wheel, the directory that was asked for is listed, and the selection fails. -/
theorem picked_nil_finds {k : Kinship} {asked : Call → Prop} (steady : o.Steady k asked) (d : Disk)
    (cwd : Place) (dist : Path) (project : String) : ∃ stop, ∀ n : Machine, n.disk = d → n.cwd = cwd →
      (picked dist project [] none).Finds o k n (.error stop) := by
  have listed : ∃ contents, ∀ n : Machine, n.disk = d → n.cwd = cwd →
      (Files.listNames dist).Finds o k n contents := by
    rcases hl : d.list cwd dist with e | names
    all_goals exact ⟨_, fun n hd hc => by
      subst hd hc
      exact Finds.bind (hl ▸ finds_list steady dist) fun _ _ _ => finds_done _⟩
  obtain ⟨contents, listed⟩ := listed
  have awaited (n : Machine) (disk : n.disk = d) (hc : n.cwd = cwd) :
      (Work.await (Files.listNames dist) none).Finds o k n (.ok contents) :=
    Does.await steady (fun _ h => by cases h) fun n' lapsed' disk' => by
      have found := listed n' (disk'.trans disk) (lapsed'.cwd.trans hc)
      rwa [Finds, disk'] at found
  rcases contents with e | contents
  · exact ⟨_, fun n disk hc => Finds.work_bind (awaited n disk hc) fun _ _ _ => finds_done _⟩
  · exact ⟨_, fun n disk hc => Finds.work_bind (awaited n disk hc) fun _ _ _ => finds_done _⟩

/-- Without failures, the only wheel of the project in the directory that is shown is selected. -/
theorem select_shown (plain : dist.Plain) (sound : ∀ n, o.fault n = none)
    (wf : m.disk.root.WellFormed) (wheel : Wheel) :
    (Machine.run o (select dist project none) m).1 = .ok wheel ↔
      ∃ name, (∀ other, Member m.disk m.cwd dist.shown project other ↔ other = name) ∧
        wheel.path = dist.shown.child name ∧ Bytes.ofString wheel.fileName = name := by
  have steady := Outside.steady_of_sound sound
  obtain ⟨names, hs, proper⟩ := plain.shown
  have leads : candidates dist = candidates (.ofNames names) := hs ▸ (candidates_shown dist).symm
  have selects {r : Except Stop Wheel} := @select_finds_picked _ _ _ m names dist project steady wf
    proper _ hs.symm leads r
  have outcome_one := (@outcome_selects dist.shown project m.disk m.cwd wf).one wheel
  rw [← outcome_one, hs]
  rcases hm : members m.disk m.cwd (.ofNames names) project with _ | ⟨name, _ | ⟨other, more⟩⟩
  · obtain ⟨stop, fails⟩ := picked_nil_finds steady m.disk m.cwd dist project
    obtain ⟨result, -⟩ := selects (r := .error stop) fun n lapsed disk => by
      rw [hm]
      exact fails n disk lapsed.cwd
    rw [Machine.run, result]
    exact iff_of_false (by simp) (by simp [outcome])
  · have hn : ProperName name := properName_of_mem_members wf (hm ▸ List.mem_singleton_self name)
    obtain ⟨result, -⟩ := selects (r := .ok ⟨(Path.ofNames names).child name, Bytes.display name⟩)
      fun n lapsed disk => by
        rw [hm, ← ofPath_child hn]
        exact finds_done _
    rw [Machine.run, result, outcome]
  · obtain ⟨result, -⟩ := selects fun n lapsed disk => by
      rw [hm]
      exact finds_done _
    rw [Machine.run, result]
    exact iff_of_false (by simp) (by simp [outcome])

/-- Whatever fails, a selected wheel is a file of the directory that the text of the path leads to, and
there it is a wheel of the project. Where nothing fails, the only such file is selected. The directory is
the one that was asked for exactly if its path is text. -/
theorem selected_where_shown (plain : dist.Plain) (project : String) :
    (dist.shown.Plain ∧ (dist.shown = dist ↔ ∃ text, dist = .ofString text)) ∧
    ∀ (o : Outside) (m : Machine), m.disk.root.WellFormed →
      (∀ deadline wheel, (Machine.run o (select dist project deadline) m).1 = .ok wheel →
        ∃ name, Member m.disk m.cwd dist.shown project name ∧ wheel.path = dist.shown.child name ∧
          Bytes.ofString wheel.fileName = name) ∧
      ((∀ n, o.fault n = none) → ∀ wheel, (Machine.run o (select dist project none) m).1 = .ok wheel ↔
        ∃ name, (∀ other, Member m.disk m.cwd dist.shown project other ↔ other = name) ∧
          wheel.path = dist.shown.child name ∧ Bytes.ofString wheel.fileName = name) :=
  ⟨⟨plain.shown, Path.shown_eq_iff⟩, fun _ _ wf =>
    ⟨fun deadline => select_stands plain wf deadline, fun sound => select_shown plain sound wf⟩⟩

/-- A directory whose name is not text, and one that has its name with a replacement character. -/
def besideShown (name shownName : Name) (wheel stale : String) : Machine where
  disk := { root := .dir [
    (name, .dir [(Bytes.ofString wheel, .file 0 0o644 .empty)]),
    (shownName, .dir [(Bytes.ofString stale, .file 1 0o644 .empty)])] }

/-- The wheel that stands in the directory is passed over for another one. -/
theorem stale_wheel_selected :
    let dist : Path := .ofNames [[0x64, 0xFF]]
    let m := besideShown [0x64, 0xFF] (Bytes.ofString "d\uFFFD") "small-2-py3-none-any.whl"
      "small-1-py3-none-any.whl"
    Member m.disk m.cwd dist "small" (Bytes.ofString "small-2-py3-none-any.whl") ∧
      (Machine.run (.small []) (select dist "small" none) m).1 =
        .ok ⟨.ofString "/d\uFFFD/small-1-py3-none-any.whl", "small-1-py3-none-any.whl"⟩ ∧
      ¬ ∃ text, dist = .ofString text := by
  intro dist m
  have plain : dist.Plain := by
    refine ⟨_, rfl, fun name hn => ?_⟩
    exact List.mem_singleton.mp hn ▸ (by decide)
  have wf : m.disk.root.WellFormed := by decide +kernel
  obtain ⟨⟨-, text⟩, selects⟩ := selected_where_shown plain "small"
  have shown : dist.shown = .ofString "/d\uFFFD" := by decide +kernel
  rw [shown] at text selects
  refine ⟨(member_iff wf).mpr (by decide +kernel), ?_, fun h => ?_⟩
  · refine (((selects (.small []) m wf).2 fun _ => rfl) _).mpr ⟨_, fun other => ?_, by decide +kernel, rfl⟩
    rw [member_iff wf, ← List.mem_singleton]
    exact iff_of_eq (congrArg (other ∈ ·) (by decide +kernel))
  · exact absurd (text.mpr h) (by decide)

end Wheel

end LayerPack
