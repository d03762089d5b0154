import LayerPack.Proofs.Disk.Reach

/-! Paths that lead to no files. Such a path leads at most to directories within directories, and its way
does not go through them. It stays so when directories are made along it or elsewhere once it leads
somewhere, when files and links are removed, and when things are changed where it does not pass. What is
then put below it has not been there before. -/
namespace LayerPack.Disk

open LayerPack.Path

variable {d d' : Disk} {cwd place parent : Place} {p q : Path} {name : Name} {es : Entries}

/-- Where the same is seen, ways are the same. -/
theorem keepsWays_of_look (same : ∀ r, d'.look r = d.look r) : d'.root.KeepsWays d.root :=
  ⟨fun r hr => (same r).symm.trans hr, fun r _ hr => (same r).symm.trans hr⟩

/-! ### An emptied directory -/

/-- Where the same is seen on two disks, it is seen when the same directory of them is emptied. -/
theorem look_emptied (h : d.get? place = some (.dir es)) {es' : Entries}
    (h' : d'.get? place = some (.dir es')) {r : Place} (same : d'.look r = d.look r) :
    (d'.put place (.dir [])).look r = (d.put place (.dir [])).look r := by
  rcases List.eq_nil_or_concat place with rfl | ⟨parent, name, rfl⟩
  · rw [put_nil, put_nil]
    exact same
  rw [List.concat_eq_append] at h h' ⊢
  by_cases hr : parent ++ [name] <+: r
  · obtain ⟨rest, rfl⟩ := hr
    obtain ⟨_, hup⟩ := Node.dir_of_get?_append h
    obtain ⟨_, hup'⟩ := Node.dir_of_get?_append h'
    exact congrArg (Option.map Node.face) ((get?_put_below hup' rest).trans (get?_put_below hup rest).symm)
  · exact (look_put hr).trans (same.trans (look_put hr).symm)

/-- In an emptied directory nothing stands any more. -/
theorem below_emptied (hne : place ≠ []) (h : d.get? place = some (.dir es)) (name : Name)
    (rest : Place) : (d.put place (.dir [])).get? (place ++ name :: rest) = none := by
  obtain ⟨parent, last, rfl⟩ := (List.eq_nil_or_concat place).resolve_left hne
  rw [List.concat_eq_append] at h ⊢
  obtain ⟨_, hup⟩ := Node.dir_of_get?_append h
  exact get?_put_below hup _

theorem get?_emptied (hne : place ≠ []) (h : d.get? place = some (.dir es)) :
    (d.put place (.dir [])).get? place = some (.dir []) := by
  obtain ⟨parent, last, rfl⟩ := (List.eq_nil_or_concat place).resolve_left hne
  rw [List.concat_eq_append] at h ⊢
  obtain ⟨_, hup⟩ := Node.dir_of_get?_append h
  exact get?_put_self hup

/-- Ways that are kept are so when the same directory is emptied. -/
theorem keepsWays_emptied (h : d.root.KeepsWays d'.root) (hne : place ≠ [])
    (hd : d.get? place = some (.dir es)) {es' : Entries} (hd' : d'.get? place = some (.dir es')) :
    (d.put place (.dir [])).root.KeepsWays (d'.put place (.dir [])).root := by
  have kept (r : Place) (face : Node) (keep : d.look r = some face → d'.look r = some face)
      (hr : (d.put place (.dir [])).look r = some face) : (d'.put place (.dir [])).look r = some face := by
    by_cases hp : place <+: r
    case neg => exact (look_put hp).trans (keep ((look_put hp).symm.trans hr))
    obtain ⟨rest, rfl⟩ := hp
    cases rest with
    | nil =>
      rw [List.append_nil] at hr ⊢
      rw [← hr]
      exact (Node.look_of_get? (get?_emptied hne hd')).trans (Node.look_of_get? (get?_emptied hne hd)).symm
    | cons name rest =>
      cases (Node.look_eq_none.mpr (below_emptied hne hd name rest)).symm.trans hr
  exact ⟨fun r => kept r _ (h.dir r), fun r target => kept r _ (h.link r target)⟩

/-- What is reached without going through a directory is reached wherever all else is the same. -/
theorem LeadsTo.outside (h : (d.put place (.dir [])).LeadsTo p place) (hne : place ≠ [])
    (hd : d.get? place = some (.dir es))
    (same : ∀ r face, (place <+: r → r = place) → d.look r = some face → d'.look r = some face) :
    d'.LeadsTo p place := by
  have kept (r : Place) (face : Node) (hr : (d.put place (.dir [])).look r = some face) :
      d'.look r = some face := by
    by_cases hp : place <+: r
    case neg => exact same r face (fun h => (hp h).elim) ((look_put hp).symm.trans hr)
    obtain ⟨rest, rfl⟩ := hp
    cases rest with
    | nil =>
      rw [List.append_nil] at hr ⊢
      refine same place face (fun _ => rfl) ?_
      rw [← hr]
      exact (Node.look_of_get? hd).trans (Node.look_of_get? (get?_emptied hne hd)).symm
    | cons name rest =>
      have none := Node.look_eq_none.mpr (below_emptied hne hd name rest)
      cases none.symm.trans hr
  exact h.keeps (.of_look kept)

/-! ### Paths to no files -/

/-- Only directories stand at a place and below it, and a path leads there without going through them. -/
structure Hollow (d : Disk) (p : Path) (place : Place) : Prop where
  notRoot : place ≠ []
  dirs : ∀ rest node, d.get? (place ++ rest) = some node → node.isDir = true
  way : (d.put place (.dir [])).LeadsTo p place

/-- If the path leads anywhere, only directories stand there. -/
def Bare (d : Disk) (p : Path) : Prop := ∀ place, d.LeadsTo p place → d.Hollow p place

/-- Where no link and no file is seen, only directories stand. -/
theorem dirs_of_look (h : ∀ rest face, d.look (place ++ rest) = some face → face.isDir = true)
    (rest : Place) (node : Node) (hg : d.get? (place ++ rest) = some node) : node.isDir = true := by
  have seen : d.look (place ++ rest) = some node.face := congrArg (Option.map Node.face) hg
  have := h rest _ seen
  cases node <;> first | rfl | cases this

namespace Hollow

theorem seen (h : d.Hollow p place) {rest : Place} {face : Node}
    (hl : d.look (place ++ rest) = some face) : face.isDir = true := by
  obtain ⟨node, hg, rfl⟩ := Option.map_eq_some_iff.mp hl
  have := h.dirs rest node hg
  cases node <;> first | rfl | cases this

theorem noLink (h : d.Hollow p place) (rest : Place) (target : Bytes) :
    d.get? (place ++ rest) ≠ some (.link target) := fun hg => by
  cases h.dirs rest _ hg

theorem noFile (h : d.Hollow p place) (rest : Place) (id mode : Nat) (content : ByteArray) :
    d.get? (place ++ rest) ≠ some (.file id mode content) := fun hg => by
  cases h.dirs rest _ hg

end Hollow

/-- What nothing is found by, not even a link at its end, leads to no directory. -/
theorem not_leadsTo_of_missing (hp : p.isAbsolute)
    (missing : ∀ found, d.resolve cwd false p ≠ .ok found) : ¬ d.LeadsTo p place := by
  rintro ⟨es, h⟩
  have follow {links : Nat} {start : Place} {parts : List Bytes} {spot : Spot}
      (hc : chase d.root true links start parts = .ok spot) :
      chase d.root false links start parts = .ok spot ∨
        ∃ dest target, chase d.root false links start parts = .ok (.found dest (.link target)) := by
    fun_induction chase d.root true links start parts with
    | case1 links start parts spot' hw =>
      rcases walk_follow d.root start parts with same | ⟨dest, target, hl⟩
      · rw [chase, ← same, hw]
        exact .inl hc
      · exact .inr ⟨dest, target, by rw [chase, hl]⟩
    | case2 => cases hc
    | case3 => cases hc
    | case4 start parts start' parts' hw left ih =>
      rcases walk_follow d.root start parts with same | ⟨dest, target, hl⟩
      · rw [chase_of_jump (same ▸ hw)]
        exact ih hc
      · exact .inr ⟨dest, target, by rw [chase, hl]⟩
  obtain ⟨check, hc⟩ := lookup_eq_ok.mp (resolve_ok.mp h)
  have lost (dest : Place) (node : Node) :
      chase d.root false maxLinks [] (partsOf p.bytes) ≠ .ok (.found dest node) := fun hc => by
    refine missing (dest, node) (resolve_ok.mpr (lookup_eq_ok.mpr ⟨check, ?_⟩))
    rwa [startOf_absolute hp]
  rw [startOf_absolute hp] at hc
  rcases follow hc with h | ⟨dest, target, h⟩
  · exact lost place (.dir es) h
  · exact lost dest (.link target) h

/-- A path that leads nowhere leads to no files. -/
theorem bare_of_missing (hp : p.isAbsolute) (missing : ∀ found, d.resolve cwd false p ≠ .ok found) :
    d.Bare p := fun _ leads => (not_leadsTo_of_missing hp missing leads).elim

/-- If a path leads somewhere only since a directory has been made on its way or below, it leads to this
directory. -/
theorem led_by_mkdir {made : Path} (hm : made.isAbsolute) (proper : ∀ part ∈ p.parts, ProperName part)
    (along : made.parts <+: p.parts ∨ p.parts <+: made.parts) (h : d.mkdir cwd made = .ok d')
    (before : ¬ ∃ place, d.LeadsTo p place) (reached : d'.LeadsTo p place) :
    ∃ parent name es, d.get? parent = some (.dir es) ∧ place = parent ++ [name] ∧
      d' = d.put (parent ++ [name]) (.dir []) := by
  obtain ⟨check, way⟩ := leadsTo_iff.mp reached
  obtain ⟨front, name, parent, hparts, hn, fits, up, missing, hd⟩ := mkdir_way hm h
  obtain ⟨es, he⟩ := up.dir
  have new : d'.get? (parent ++ [name]) = some (.dir []) := by
    rw [hd]
    exact get?_put_self he
  have entered : d'.root.Way (front ++ [name]) (parent ++ [name]) :=
    (up.keeps (mkdir_grows h).keepsWays).child hn fits new
  rw [hparts] at along
  -- The new directory is the one that the path leads to.
  have here : p.parts = front ++ [name] := by
    rcases along with ⟨rest, hrest⟩ | along
    · cases rest with
      | nil => rw [← hrest, List.append_nil]
      | cons more rest =>
        rw [← hrest] at way proper
        have below : d'.get? (parent ++ [name] ++ [more]) = none := by
          rw [hd]
          exact get?_put_below he _
        exact (entered.not_of_missing (proper more (by simp)) below way).elim
    · rcases List.prefix_concat_iff.mp (by simpa using along) with h | ⟨rest, rfl⟩
      · simpa using h
      · -- Above a new directory of the path, the path has led somewhere.
        refine (before ?_).elim
        obtain ⟨place, hw⟩ : ∃ place, d.root.Way p.parts place := by
          by_cases hr : rest = []
          · exact ⟨parent, by simpa [hr] using up⟩
          · refine up.upTo ?_
            obtain ⟨part, hpart⟩ := List.exists_mem_of_ne_nil rest hr
            have : part ∈ made.parts := by simp [hparts, hpart]
            exact ⟨part, hpart, by simpa using (List.mem_filter.mp this).2⟩
        exact ⟨place, leadsTo_iff.mpr ⟨check, hw⟩⟩
  rw [here] at way
  exact ⟨parent, name, es, he, way.unique entered, hd⟩

namespace Bare

/-- A directory is made anywhere, and the path has led somewhere before. -/
theorem grows {made : Path} (bare : d.Bare p) (there : d.LeadsTo p place)
    (h : d.mkdir cwd made = .ok d') : d'.Bare p := by
  intro dest reached
  obtain rfl := reached.unique (there.keeps (mkdir_grows h).keepsWays)
  have hollow := bare dest there
  obtain ⟨es, hd⟩ := there.dir
  obtain ⟨es', hd'⟩ := reached.dir
  refine ⟨hollow.notRoot, dirs_of_look fun rest face hl => ?_, ?_⟩
  · rcases look_mkdir h (dest ++ rest) with same | ⟨-, new⟩
    · exact hollow.seen (same.symm.trans hl)
    · cases new.symm.trans hl
      rfl
  · refine hollow.way.outside hollow.notRoot hd fun r face aside hl => ?_
    have still : d'.look r = some face := by
      refine (mkdir_grows h r fun hn => ?_).trans hl
      rw [look, Node.look_eq_none.mpr hn] at hl
      cases hl
    by_cases hr : dest <+: r
    case neg => exact (look_put hr).trans still
    obtain rfl := aside hr
    rw [← still]
    exact (Node.look_of_get? (get?_emptied hollow.notRoot hd')).trans (Node.look_of_get? hd').symm

/-- A directory is made on the way of the path, or below it. -/
theorem mkdir {made : Path} (bare : d.Bare p) (hm : made.isAbsolute)
    (proper : ∀ part ∈ p.parts, ProperName part) (along : made.parts <+: p.parts ∨ p.parts <+: made.parts)
    (h : d.mkdir cwd made = .ok d') : d'.Bare p := by
  by_cases there : ∃ place, d.LeadsTo p place
  · obtain ⟨place, there⟩ := there
    exact bare.grows there h
  intro dest reached
  obtain ⟨parent, name, es, he, rfl, hd⟩ := led_by_mkdir hm proper along h there reached
  have new : d'.get? (parent ++ [name]) = some (.dir []) := by
    rw [hd]
    exact get?_put_self he
  refine ⟨by simp, fun rest node hg => ?_, ?_⟩
  · rw [hd] at hg
    have := (get?_put_below he rest).symm.trans hg
    cases rest with
    | nil =>
      cases this
      rfl
    | cons => cases this
  · have same (r : Place) : (d'.put (parent ++ [name]) (.dir [])).look r = d'.look r := by
      by_cases hr : parent ++ [name] <+: r
      case neg => exact look_put hr
      obtain ⟨rest, rfl⟩ := hr
      obtain ⟨_, he'⟩ := Node.dir_of_get?_append new
      refine congrArg (Option.map Node.face) ((get?_put_below he' rest).trans ?_)
      rw [Node.get?_append, get?_root, new]
      rfl
    exact reached.keeps (keepsWays_of_look fun r => (same r).symm)

/-- A file or a link is removed anywhere. -/
theorem unlink {gone : Path} (bare : d.Bare p) (wf : d.root.WellFormed)
    (h : d.unlink cwd gone = .ok d') : d'.Bare p := by
  obtain ⟨parent, name, node, -, -, -, rfl⟩ := unlink_ok h
  have lost : (d.erase (parent ++ [name])).root.KeepsWays d.root := erase_keepsWays wf (by simp)
  have same (r : Place) (face : Node) (hl : (d.erase (parent ++ [name])).look r = some face) :
      (d.erase (parent ++ [name])).look r = d.look r := by
    refine look_erase fun hr => ?_
    obtain ⟨rest, rfl⟩ := hr
    cases (Node.look_eq_none.mpr (get?_erase_below wf (by simp) rest)).symm.trans hl
  intro place reached
  have hollow := bare place (reached.keeps lost)
  obtain ⟨es, hd⟩ := (reached.keeps lost).dir
  obtain ⟨es', hd'⟩ := reached.dir
  refine ⟨hollow.notRoot, dirs_of_look fun rest face hl => ?_, ?_⟩
  · exact hollow.seen ((same _ face hl).symm.trans hl)
  · refine reached.common hollow.way lost (empty_keepsWays hd) fun r face hl hl' => ?_
    exact (look_emptied hd hd' (same r face hl)).trans hl'

end Bare

/-! ### What others change -/

/-- Nothing has changed but below the directory that the path leads to. -/
def ChangedBelow (p : Path) (d d' : Disk) : Prop :=
  ∀ r, (∀ place, d.LeadsTo p place → ¬ (place <+: r ∧ place ≠ r)) → d'.look r = d.look r

/-- The directories of the path have been made as far as they were missing, and else nothing has changed
but below the last of them. -/
def WritesBelow (p : Path) (d d' : Disk) : Prop := ∃ made, d.MadeWay p made ∧ made.ChangedBelow p d'

/-- The path leads nowhere now, or it leads where it has led before, by what has been there before and is
there now, and all is there as it was. -/
def Undisturbed (p : Path) (d d' : Disk) : Prop := ∀ place, d'.LeadsTo p place →
  (∃ common : Disk, common.root.KeepsWays d.root ∧ common.root.KeepsWays d'.root ∧
    common.LeadsTo p place) ∧ ∀ rest, d'.look (place ++ rest) = d.look (place ++ rest)

/-- Whatever is written below the first path, it does not disturb the second one. -/
def Aside (d : Disk) (p q : Path) : Prop := ∀ d', d.WritesBelow p d' → d.Undisturbed q d'

/-- Where the path leads to a directory, no directory of it is missing. -/
theorem MadeWay.same {made : Disk} (h : d.MadeWay p made) (leads : d.LeadsTo p place) (r : Place) :
    made.look r = d.look r := by
  by_cases hn : d.get? r = none
  case neg => exact h.grows r hn
  refine Eq.trans (Node.look_eq_none.mpr ?_) (Node.look_eq_none.mpr hn).symm
  refine Classical.byContradiction fun there => ?_
  obtain ⟨-, q, above, hs⟩ := h.added r hn there
  obtain ⟨parent, name, slashed, hparent, rfl⟩ := lookupParent_of_seat hs
  obtain ⟨front, hparts, proper, -, way⟩ := lookupParent_way hparent
  obtain ⟨rest, hrest⟩ := parts_of_above above
  obtain ⟨-, whole⟩ := leadsTo_iff.mp leads
  rw [← hrest, hparts, List.append_assoc, List.singleton_append] at whole
  obtain ⟨dest, up⟩ := whole.upTo ⟨name, List.mem_cons_self, proper.nonempty⟩
  obtain rfl := way.unique (up.keeps h.grows.keepsWays)
  exact up.not_of_missing proper hn whole

theorem ChangedBelow.at (h : d.ChangedBelow p d') (leads : d.LeadsTo p place) : d.ChangedAt place d' := by
  refine fun r hr => h r fun dest leads' below => hr ?_
  obtain rfl := leads.unique leads'
  exact below.1

theorem WritesBelow.changed (h : d.WritesBelow p d') (leads : d.LeadsTo p place) :
    d.ChangedBelow p d' := by
  obtain ⟨made, way, changed⟩ := h
  have same := way.same leads
  intro r hr
  refine (changed r fun dest leads' => hr dest ?_).trans (same r)
  exact leads'.keeps (keepsWays_of_look same)

theorem WritesBelow.refl (p : Path) (d : Disk) : d.WritesBelow p d := ⟨d, .refl p d, fun _ _ => rfl⟩

/-- What is put in the place of a directory is written below its path. -/
theorem writesBelow_put (leads : d.LeadsTo p place) (es : Entries) :
    d.WritesBelow p (d.put place (.dir es)) := by
  refine ⟨d, .refl p d, fun r hr => ?_⟩
  by_cases hp : place <+: r
  case neg => exact look_put hp
  obtain rfl : place = r := Classical.byContradiction fun hne => hr place leads ⟨hp, hne⟩
  obtain ⟨old, hd⟩ := leads.dir
  rcases List.eq_nil_or_concat place with rfl | ⟨parent, name, rfl⟩
  · rw [put_nil]
  rw [List.concat_eq_append] at hd ⊢
  obtain ⟨_, hup⟩ := Node.dir_of_get?_append hd
  exact (Node.look_of_get? (get?_put_self hup)).trans (Node.look_of_get? hd).symm

/-- What a path leads to is aside of a directory if it lies apart from it and is reached without it. -/
theorem aside_of_apart {dir : Place} (h : d.LeadsTo p dir) (reached : (d.erase dir).LeadsTo q place)
    (wf : d.root.WellFormed) (apart : ¬ dir <+: place ∧ ¬ place <+: dir) : d.Aside p q := by
  intro d' written dest leads
  have changed := (written.changed h).at h
  have hne : dir ≠ [] := fun he => apart.1 (he ▸ List.nil_prefix)
  have ways : (d.erase dir).root.KeepsWays d'.root := by
    have same (r : Place) (face : Node) (hl : (d.erase dir).look r = some face) : d'.look r = some face := by
      have hr : ¬ dir <+: r := by
        rintro ⟨rest, rfl⟩
        cases (Node.look_eq_none.mpr (get?_erase_below wf hne rest)).symm.trans hl
      exact (changed r hr).trans ((look_erase hr).symm.trans hl)
    exact .of_look same
  obtain rfl := leads.unique (reached.keeps ways)
  refine ⟨⟨d.erase dir, erase_keepsWays wf hne, ways, reached⟩, fun rest => changed _ fun hr => ?_⟩
  exact (List.prefix_or_prefix_of_prefix hr (List.prefix_append dest rest)).elim apart.1 apart.2

/-- What leads to no files does so still if it is not disturbed. -/
theorem Bare.undisturbed (bare : d.Bare q) (h : d.Undisturbed q d') : d'.Bare q := by
  intro place reached
  obtain ⟨⟨common, ways, ways', leads⟩, same⟩ := h place reached
  have before : d.LeadsTo q place := leads.keeps ways
  have hollow := bare place before
  obtain ⟨es, hd⟩ := before.dir
  obtain ⟨es₀, hc⟩ := leads.dir
  refine ⟨hollow.notRoot, dirs_of_look fun rest face hl => hollow.seen ((same rest).symm.trans hl), ?_⟩
  have emptied : (common.put place (.dir [])).LeadsTo q place := by
    refine leads.common hollow.way ways (empty_keepsWays hd) fun r face hl hl' => ?_
    by_cases hr : place <+: r
    case neg => exact (look_put hr).trans hl
    obtain ⟨rest, rfl⟩ := hr
    cases rest with
    | nil =>
      rw [List.append_nil] at hl' ⊢
      rw [← hl']
      exact (Node.look_of_get? (get?_emptied hollow.notRoot hc)).trans
        (Node.look_of_get? (get?_emptied hollow.notRoot hd)).symm
    | cons name rest =>
      cases (Node.look_eq_none.mpr (below_emptied hollow.notRoot hd name rest)).symm.trans hl'
  obtain ⟨es', hd'⟩ := reached.dir
  exact emptied.keeps (keepsWays_emptied ways' hollow.notRoot hc hd')

/-- The second path goes on from the first one by names. -/
structure Extends (q p : Path) (names : List Name) : Prop where
  start : q.bytes <+: p.bytes
  parts : ∃ more, p.parts = q.parts ++ more ∧ componentsOf more = names.map .normal

/-- A path of names goes on from the path of the first of them. -/
theorem extends_ofNames {front back : List Name} (proper : ∀ n ∈ front ++ back, ProperName n) :
    Extends (.ofNames front) (.ofNames (front ++ back)) back := by
  refine ⟨?_, back, ?_, Path.componentsOf_names fun n hn => proper n (List.mem_append_right _ hn)⟩
  · refine List.cons_prefix_cons.mpr ⟨rfl, ?_⟩
    by_cases hf : front = []
    · simp [hf, joinSlash]
    by_cases hb : back = []
    · simp [hb]
    rw [Path.joinSlash_append hf hb]
    exact List.prefix_append _ _
  · rw [parts_ofNames proper, parts_ofNames fun n hn => proper n (List.mem_append_left _ hn)]

/-- What leads to the one directory leads to the other one before. -/
theorem Extends.leadsTo {names : List Name} (h : Extends q p names) (hq : q.isAbsolute)
    (leads : d.LeadsTo p place) :
    ∃ dest, d.LeadsTo q dest ∧ (d.Hollow q dest → place = dest ++ names) := by
  obtain ⟨more, hparts, hm⟩ := h.parts
  obtain ⟨check, way⟩ := leadsTo_iff.mp leads
  have nonempty : q.bytes ≠ [] := by
    obtain ⟨rest, hrest⟩ := Path.eq_slash_cons hq
    simp [hrest]
  have check : checkPath q = .ok () := checkPath_prefix nonempty h.start check
  rw [hparts] at way
  obtain ⟨dest, up⟩ : ∃ dest, d.root.Way q.parts dest := by
    by_cases hmore : more = []
    · exact ⟨place, by simpa [hmore] using way⟩
    · refine way.upTo ?_
      obtain ⟨part, hpart⟩ := List.exists_mem_of_ne_nil more hmore
      have : part ∈ p.parts := by simp [hparts, hpart]
      exact ⟨part, hpart, by simpa using (List.mem_filter.mp this).2⟩
  exact ⟨dest, leadsTo_iff.mpr ⟨check, up⟩, fun hollow => up.onward way hm hollow.noLink⟩

/-- When something has been put below a directory in a path to no files, the path leads where it has led,
and nothing else stands there. -/
theorem Bare.filled {dir : Place} {names : List Name} (bare : d.Bare q) (h : Extends q p names)
    (hq : q.isAbsolute) (there : d.LeadsTo p dir) (changed : d.ChangedBelow p d') :
    ∃ dest, dest <+: dir ∧ d.Hollow q dest ∧ d'.LeadsTo q dest := by
  obtain ⟨dest, before, below⟩ := h.leadsTo hq there
  have hollow := bare dest before
  obtain rfl := below hollow
  obtain ⟨es, hd⟩ := before.dir
  refine ⟨dest, List.prefix_append _ _, hollow, ?_⟩
  refine hollow.way.outside hollow.notRoot hd fun r face aside hl => (changed r ?_).trans hl
  rintro dir leads ⟨hr, hne⟩
  obtain rfl := there.unique leads
  obtain rfl := aside ((List.prefix_append dest names).trans hr)
  exact hne (hr.eq_of_length_le (List.prefix_append _ _).length_le)

/-- A name in a directory without files leads to no files. -/
theorem Bare.child {name : Name} (bare : d.Bare q) (hq : q.isAbsolute)
    (start : q.bytes <+: p.bytes) (hparts : p.parts = q.parts ++ [name]) (fits : name.length ≤ maxName)
    (hn : ProperName name) : d.Bare p := by
  have h : Extends q p [name] := ⟨start, [name], hparts, componentsOf_names (by simpa using hn)⟩
  intro place leads
  obtain ⟨dest, up, below⟩ := h.leadsTo hq leads
  have hollow := bare dest up
  obtain rfl := below hollow
  obtain ⟨es, hd⟩ := up.dir
  obtain ⟨inner, hi⟩ := leads.dir
  obtain ⟨check, -⟩ := leadsTo_iff.mp leads
  have apart : ¬ dest ++ [name] <+: dest := fun hpre => by
    have := hpre.length_le
    rw [List.length_append, List.length_singleton] at this
    omega
  have still : (d.put (dest ++ [name]) (.dir [])).LeadsTo q dest := by
    refine hollow.way.outside hollow.notRoot hd fun r face aside hl => (look_put fun hr => ?_).trans hl
    exact apart (aside ((List.prefix_append _ _).trans hr) ▸ hr)
  refine ⟨by simp, fun rest node hg => hollow.dirs (name :: rest) node (by simpa using hg), ?_⟩
  refine leadsTo_iff.mpr ⟨check, ?_⟩
  rw [hparts]
  exact (leadsTo_iff.mp still).2.child hn fits (get?_emptied (by simp) hi)

end LayerPack.Disk
