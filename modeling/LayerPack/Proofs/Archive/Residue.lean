import LayerPack.Proofs.Archive.Writing
import LayerPack.Proofs.Disk.Below
import LayerPack.Proofs.Machine.Losses

/-! What archiving leaves besides the output. It opens one file, in a place where nothing stood and
where it stays nothing but a file. At the end this file has been moved or removed, unless its removal
was refused. -/
namespace LayerPack

open Program Machine

variable {o : Outside} {m m' : Machine} {es es' : List (Request × Machine)} {place : Place}

/-- Some request has opened a file for writing at the place. -/
def Opens (o : Outside) (place : Place) (es : List (Request × Machine)) : Prop :=
  ∃ truncate p before handle, (.openWrite truncate p, before) ∈ es ∧
    (answer o (.openWrite truncate p) before).1 = .ok handle ∧ handle.place = place

/-- Some request to remove what stands at the place has been refused. -/
def Outside.Refuses (o : Outside) (place : Place) (es : List (Request × Machine)) : Prop :=
  ∃ p before, (.unlink p, before) ∈ es ∧ before.disk.seat before.cwd p = some place ∧
    o.fault before.ticks ≠ none

theorem opens_append : Opens o place (es ++ es') ↔ Opens o place es ∨ Opens o place es' := by
  simp only [Opens, List.mem_append, or_and_right, exists_or]

theorem opens_cons {e : Request × Machine} :
    Opens o place (e :: es) ↔ Opens o place [e] ∨ Opens o place es := by
  rw [← opens_append, List.singleton_append]

theorem Outside.Refuses.mono (h : o.Refuses place es) (sub : es ⊆ es') : o.Refuses place es' := by
  obtain ⟨p, before, he, hr⟩ := h
  exact ⟨p, before, sub he, hr⟩

namespace Disk

variable {d d' : Disk} {cwd : Place} {p dst : Path} {names : List Name}

/-- The place is open to its path, and nothing but a file stands there. -/
structure Sheltered (place : Place) (d : Disk) : Prop where
  wellFormed : d.root.WellFormed
  clear : d.root.NoLinkAbove place
  file : ∀ node, d.get? place = some node → ∃ id mode content, node = .file id mode content

theorem sheltered_of_none (wf : d.root.WellFormed) (clear : d.root.NoLinkAbove place)
    (h : d.get? place = none) : d.Sheltered place :=
  ⟨wf, clear, fun node hn => by cases h.symm.trans hn⟩

theorem Tame.sheltered (h : d.Tame d') (hd : d.Sheltered place)
    (file : ∀ node, d'.get? place = some node → ∃ id mode content, node = .file id mode content) :
    d'.Sheltered place :=
  ⟨h.wellFormed hd.wellFormed, (h.noNewLink hd.wellFormed).noLinkAbove hd.clear, file⟩

/-- Below a file there is nothing. -/
theorem Sheltered.below (h : d.Sheltered place) {x : Place} (hx : place <+: x) (hne : x ≠ place) :
    d.get? x = none := by
  obtain ⟨rest, rfl⟩ := hx
  cases rest with
  | nil => simp at hne
  | cons name rest =>
    refine Option.eq_none_iff_forall_ne_some.mpr fun node hn => ?_
    obtain ⟨es, he⟩ := Node.dir_of_get?_append hn
    obtain ⟨_, _, _, hf⟩ := h.file _ he
    cases hf

/-- What looks like a file is one. -/
theorem file_of_look (same : d'.look place = d.look place)
    (hf : ∀ node, d.get? place = some node → ∃ id mode content, node = .file id mode content)
    {node : Node} (hn : d'.get? place = some node) : ∃ id mode content, node = .file id mode content := by
  cases node with
  | file id mode content => exact ⟨id, mode, content, rfl⟩
  | link target =>
    obtain ⟨_, _, _, h⟩ := hf _ (Node.look_eq_link.mp (same.symm.trans (Node.look_eq_link.mpr hn)))
    cases h
  | dir es =>
    obtain ⟨-, es', he⟩ := Node.look_eq_dir.mp (same.symm.trans (Node.look_of_get? hn))
    obtain ⟨_, _, _, h⟩ := hf _ he
    cases h

/-- A file that is put into a directory changes no other. -/
theorem file_of_put_name {id mode : Nat} {content : ByteArray} {parent : Place} {name : Name}
    {es : Entries} (he : d.get? parent = some (.dir es))
    (hf : ∀ node, d.get? place = some node → ∃ id mode content, node = .file id mode content)
    {node : Node} (hn : (d.put (parent ++ [name]) (.file id mode content)).get? place = some node) :
    ∃ id mode content, node = .file id mode content := by
  by_cases hp : parent ++ [name] <+: place
  case neg => exact file_of_look (look_put hp) hf hn
  obtain ⟨rest, rfl⟩ := hp
  rw [get?_put_below he] at hn
  cases rest with
  | nil =>
    cases hn
    exact ⟨id, mode, content, rfl⟩
  | cons => cases hn

/-- A file that is put in the place of a file changes no other. -/
theorem file_of_put {id mode : Nat} {content : ByteArray} {old : Node} {at_ : Place}
    (ho : d.get? at_ = some old) (hf : ∀ node, d.get? place = some node →
      ∃ id mode content, node = .file id mode content) {node : Node}
    (hn : (d.put at_ (.file id mode content)).get? place = some node) :
    ∃ id mode content, node = .file id mode content := by
  rcases List.eq_nil_or_concat at_ with rfl | ⟨parent, name, rfl⟩
  · rw [put_nil] at hn
    exact hf node hn
  · rw [List.concat_eq_append] at ho hn
    obtain ⟨es, he⟩ := Node.dir_of_get?_append ho
    exact file_of_put_name he hf hn

/-- What is written to a file goes nowhere else. -/
theorem file_of_append (handle : Handle) (bytes : ByteArray)
    (hf : ∀ node, d.get? place = some node → ∃ id mode content, node = .file id mode content)
    {node : Node} (hn : (d.append handle bytes).get? place = some node) :
    ∃ id mode content, node = .file id mode content := by
  unfold Disk.append at hn
  split at hn
  next id mode content hg =>
    split at hn
    · exact file_of_put hg hf hn
    · exact hf node hn
  next => exact hf node hn

theorem Sheltered.append (h : d.Sheltered place) (handle : Handle) (bytes : ByteArray) :
    (d.append handle bytes).Sheltered place :=
  (append_tame handle bytes).sheltered h fun _ => file_of_append handle bytes h.file

/-- The path of a sheltered place opens a file there. -/
theorem Sheltered.openWrite {truncate : Bool} {handle : Handle} (h : d.Sheltered place)
    (proper : ∀ name ∈ place, ProperName name) (hne : place ≠ []) (hp : p = .ofNames place)
    (hop : d.openWrite cwd truncate p = .ok (handle, d')) :
    handle.place = place ∧ d'.Sheltered place := by
  subst hp
  have arrives {spot : Spot} (hl : d.lookup cwd true (.ofNames place) = .ok spot) :
      (Walked.arrived spot).At d.root place := by
    have hc := chase_of_lookup proper hne hl
    have hw : (walk d.root true [] place).At d.root ([] ++ place) := by
      refine walk_spelled (Path.componentsOf_names proper) fun up target hu ht => ?_
      by_cases he : up = place
      · subst he
        obtain ⟨_, _, _, hf⟩ := h.file _ ht
        cases hf
      · exact (h.clear up target hu he ht).elim
    rwa [arrived_of_chase hw hc] at hw
  have tame := openWrite_tame hop
  rcases openWrite_ok hop with ⟨id, mode, content, hl, -, rfl⟩ | ⟨parent, name, hl, rfl, rfl⟩
  · obtain ⟨hp, hg⟩ := arrives hl
    refine ⟨hp, tame.sheltered h fun node hn => ?_⟩
    cases truncate with
    | false => exact h.file node hn
    | true => exact file_of_put (hp ▸ hg) h.file hn
  · obtain ⟨rfl, hg⟩ := arrives hl
    refine ⟨rfl, tame.sheltered h fun node hn => ?_⟩
    obtain ⟨⟨es, he⟩, -, -⟩ := lookup_sound hl
    change (d.put (parent ++ [name]) _).get? _ = _ at hn
    rw [get?_put_self he] at hn
    exact ⟨_, _, _, (Option.some.inj hn).symm⟩

theorem Sheltered.unlink (h : d.Sheltered place) (hs : p.Spells place)
    (hop : d.unlink cwd p = .ok d') : d'.get? place = none ∧ d'.Sheltered place := by
  have gone := (unlink_gone h.wellFormed hs h.clear hop).1
  have tame := unlink_tame hop
  exact ⟨gone, sheltered_of_none (tame.wellFormed h.wellFormed)
    ((tame.noNewLink h.wellFormed).noLinkAbove h.clear) gone⟩

/-- Two names in one directory. -/
def Siblings (names place : List Name) : Prop :=
  ∀ up name, names = up ++ [name] → ∃ other, other ≠ name ∧ place = up ++ [other]

theorem Siblings.not_prefix (h : Siblings names place) (hne : names ≠ []) {x : Place}
    (hx : x <+: place) : ¬ names <+: x := by
  intro hp
  obtain ⟨up, name, rfl⟩ := (List.eq_nil_or_concat names).resolve_left hne
  rw [List.concat_eq_append] at h hp
  obtain ⟨other, hother, rfl⟩ := h up name rfl
  exact not_prefix_beside hother.symm up (hp.trans hx)

theorem Siblings.clear {root : Node} (h : Siblings names place) (hl : root.NoLinkAbove place) :
    root.NoLinkAbove names := by
  rcases List.eq_nil_or_concat names with rfl | ⟨up, name, rfl⟩
  · intro above target hu hne
    exact (hne (List.prefix_nil.mp hu)).elim
  rw [List.concat_eq_append] at h ⊢
  obtain ⟨other, hother, rfl⟩ := h up name rfl
  intro above target hu hne
  have hup : above <+: up := (List.prefix_concat_iff.mp hu).resolve_left hne
  refine hl above target (hup.trans (List.prefix_append _ _)) fun he => ?_
  have := hup.length_le
  rw [he, List.length_append, List.length_singleton] at this
  omega

/-- What is moved away to its sibling is gone. -/
theorem Sheltered.rename (h : d.Sheltered place) (hs : p.Spells place) (hd : dst.Spells names)
    (siblings : Siblings names place) (hop : d.rename cwd p dst = .ok d') :
    d'.get? place = none ∧ d'.Sheltered place := by
  have clear := siblings.clear h.clear
  obtain ⟨srcDir, srcName, _, dstDir, dstName, _, hsrc, hdst, hmove⟩ := rename_ok hop
  obtain rfl := lookupParent_spelled hs h.clear hsrc
  obtain rfl := lookupParent_spelled hd clear hdst
  have apart {x : Place} : x <+: srcDir ++ [srcName] → ¬ dstDir ++ [dstName] <+: x :=
    siblings.not_prefix (by simp)
  have gone : d'.get? (srcDir ++ [srcName]) = none := by
    obtain ⟨node, -, -, ⟨rfl, he⟩ | ⟨rfl, -, -⟩⟩ := move_ok hmove
    · exact (apart List.prefix_rfl (he ▸ List.prefix_rfl)).elim
    · refine Node.look_eq_none.mp ((look_put (apart List.prefix_rfl)).trans ?_)
      have := get?_erase_below h.wellFormed (p := srcDir ++ [srcName]) (by simp) []
      rw [List.append_nil] at this
      exact Node.look_eq_none.mpr this
  refine ⟨gone, sheltered_of_none (rename_wellFormed h.wellFormed hop) ?_ gone⟩
  intro above target hu hne ht
  refine h.clear above target hu hne (Node.look_eq_link.mp (Eq.trans ?_ (Node.look_eq_link.mpr ht)))
  refine (rename_look hop (fun seat hseat hp => ?_) fun seat hseat hp => ?_).symm
  · rw [seat_spelled hs h.clear hseat] at hp
    exact hne (hu.eq_of_length_le hp.length_le)
  · rw [seat_spelled hd clear hseat] at hp
    exact apart hu hp

end Disk

namespace Archive

variable {output root : Path} {fresh : String} {names : List Name} {files : List Path}

/-- The hidden file has a place beside the output, or in the root if the output is the root. -/
theorem exists_hiddenPlace (hs : output.Spells names) (written : output = .ofNames names)
    (hf : slash ∉ Bytes.ofString fresh) : ∃ place, partialPath output fresh = .ofNames place ∧
      (∀ name ∈ place, ProperName name) ∧ Disk.Siblings names place ∧
      place = names.dropLast ++ [partialName output fresh] := by
  subst written
  have proper : ProperName (partialName (.ofNames names) fresh) := properName_partialName hf
  refine ⟨_, ?_, fun name hn => ?_, ?_, rfl⟩
  · rcases List.eq_nil_or_concat names with rfl | ⟨up, last, rfl⟩
    · have noName : (Path.ofNames []).fileName? = none := by rw [Path.fileName?, hs.components]; rfl
      rw [partialPath, Path.withFileName, noName]
      dsimp only
      rw [Path.child, Path.join, Path.isAbsolute_name proper, if_neg (by simp), if_pos (.inr rfl)]
      rfl
    · rw [List.concat_eq_append] at hs proper ⊢
      rw [List.dropLast_concat]
      exact Path.withFileName_ofNames hs.proper proper
  · rcases List.mem_append.mp hn with hn | hn
    · exact hs.proper name (List.dropLast_subset _ hn)
    · exact List.mem_singleton.mp hn ▸ proper
  · rintro up name rfl
    exact ⟨_, partialName_ne hs.fileName?, by rw [List.dropLast_concat]⟩

/-- The removal of a file leaves nothing in the place that the path leads to, unless it is refused. -/
theorem removePartial_clears {hidden : Path} (wf : m.disk.root.WellFormed)
    (file : ∀ node, m.disk.get? place = some node → ∃ id mode content, node = .file id mode content)
    (found : m.disk.get? place = none ∨ ∃ parent name, place = parent ++ [name] ∧
      m.disk.lookupParent m.cwd hidden = .ok (parent, .name name false)) :
    (removePartial hidden).Ends (answer o) m fun _ es m' =>
      m'.disk.get? place = none ∨ o.Refuses place es := by
  have logged {m₁ : Machine} {es : List (Request × Machine)} (level : Level) (text : String)
      (gone : m₁.disk.get? place = none ∨ o.Refuses place es) :
      (request (.log level text)).Ends (answer o) m₁ fun _ es' m' =>
        m'.disk.get? place = none ∨ o.Refuses place (es ++ es') :=
    gone.imp id fun refused => refused.mono (List.subset_append_left _ _)
  refine Ends.bind (p := Files.unlink hidden) (M := fun _ es m₁ =>
    m₁.disk.get? place = none ∨ o.Refuses place es) (ends_request.mpr ?_) ?_
  · rcases changed_unlink o m hidden with ⟨-, hop, -⟩ | ⟨⟨e, hr⟩, same⟩
    · left
      obtain ⟨parent, name, node, way, -, -, hd⟩ := Disk.unlink_ok hop
      rw [hd]
      rcases found with none | ⟨_, _, rfl, way'⟩
      · by_cases hp : parent ++ [name] <+: place
        · obtain ⟨rest, rfl⟩ := hp
          exact Disk.get?_erase_below wf (by simp) rest
        · exact Node.look_eq_none.mp ((Disk.look_erase hp).trans (Node.look_eq_none.mpr none))
      · cases way.symm.trans way'
        have := Disk.get?_erase_below wf (p := parent ++ [name]) (by simp) []
        rwa [List.append_nil] at this
    rw [same.disk]
    refine or_iff_not_imp_left.mpr fun there => ?_
    obtain ⟨parent, name, rfl, way⟩ := found.resolve_left there
    obtain ⟨node, hn⟩ := Option.ne_none_iff_exists'.mp there
    obtain ⟨id, mode, content, rfl⟩ := file node hn
    refine ⟨_, m, List.mem_singleton_self _, Disk.seat_of_lookupParent way, fun allowed => ?_⟩
    change (changing (o.fault m.ticks) _ (m.disk.unlink m.cwd _)).1 = _ at hr
    rw [allowed, Disk.unlink_file way hn] at hr
    cases hr
  · rintro (e | ⟨⟩) es m₁ gone
    · dsimp only
      split
      · exact gone.imp id fun refused => refused.mono (List.subset_append_left _ _)
      · exact logged _ _ gone
    · exact logged _ _ gone

section Hidden

variable (hidden : partialPath output fresh = .ofNames place) (proper : ∀ name ∈ place, ProperName name)
  (hne : place ≠ []) (hs : output.Spells names) (siblings : Disk.Siblings names place)

include hidden proper hne hs siblings

/-- Every request of archiving leaves the hidden file in its place, and opens no other. -/
theorem sheltered_step {q : Request} (hq : q.Archives output fresh) (h : m.disk.Sheltered place) :
    (answer o q m).2.disk.Sheltered place ∧ ∀ x, Opens o x [(q, m)] → x = place := by
  have spells : (partialPath output fresh).Spells place := hidden ▸ .ofNames proper
  have unopened (hq : ∀ truncate p, q ≠ .openWrite truncate p) : ∀ x, Opens o x [(q, m)] → x = place := by
    rintro x ⟨truncate, p, before, handle, he, -⟩
    obtain ⟨rfl, -⟩ := Prod.mk.inj (List.mem_singleton.mp he)
    exact (hq _ _ rfl).elim
  have same {m' : Machine} (hm : Same m m') : m'.disk.Sheltered place := hm.disk ▸ h
  rcases hq with hq | ⟨handle, bytes, rfl⟩ | rfl | rfl | rfl
  · refine ⟨same (same_quiet hq o m), unopened ?_⟩
    rintro truncate p rfl
    exact hq
  · refine ⟨?_, unopened (by simp)⟩
    rcases changed_append o m handle bytes with ⟨-, hop, -⟩ | ⟨-, hm⟩
    · rw [← Except.ok.inj hop]
      exact h.append handle bytes
    · exact same hm
  · rcases opened_openWrite o m true (partialPath output fresh) with ⟨handle, hr, hop, -⟩ | ⟨⟨e, hr⟩, hm⟩
    · obtain ⟨hp, h'⟩ := h.openWrite proper hne hidden hop
      refine ⟨h', ?_⟩
      rintro x ⟨truncate, p, before, handle', he, hr', rfl⟩
      cases List.mem_singleton.mp he
      cases hr.symm.trans hr'
      exact hp
    · refine ⟨same hm, ?_⟩
      rintro x ⟨truncate, p, before, handle', he, hr', -⟩
      cases List.mem_singleton.mp he
      cases hr.symm.trans hr'
  · refine ⟨?_, unopened (by simp)⟩
    rcases changed_unlink o m (partialPath output fresh) with ⟨-, hop, -⟩ | ⟨-, hm⟩
    · exact (h.unlink spells hop).2
    · exact same hm
  · refine ⟨?_, unopened (by simp)⟩
    rcases changed_rename o m (partialPath output fresh) output with ⟨-, hop, -⟩ | ⟨-, hm⟩
    · exact (h.rename spells hs siblings hop).2
    · exact same hm

theorem sheltered_run {α : Type} {p : Program α} (hp : p.Only (Request.Archives output fresh))
    (h : m.disk.Sheltered place) : p.Ends (answer o) m fun _ es m' =>
      m'.disk.Sheltered place ∧ ∀ x, Opens o x es → x = place := by
  refine hp.run_history (H := fun m es m' => m.disk.Sheltered place →
    m'.disk.Sheltered place ∧ ∀ x, Opens o x es → x = place) ?_ ?_ m h
  · refine fun m h => ⟨h, fun x hx => ?_⟩
    simp [Opens] at hx
  · intro q m es m' hq rest h
    obtain ⟨h', first⟩ := sheltered_step hidden proper hne hs siblings hq h
    obtain ⟨h'', later⟩ := rest h'
    exact ⟨h'', fun x hx => (opens_cons.mp hx).elim (first x) (later x)⟩

/-- What was moved to the output is not in the place of the hidden file any more. -/
theorem writeAndMove_moved (h : m.disk.Sheltered place) (deadline : Option Nat) :
    (writeAndMove root files (partialPath output fresh) output deadline).Ends (answer o) m
      fun r _ m' => ∀ measured, r = .ok measured → m'.disk.get? place = none := by
  have spells : (partialPath output fresh).Spells place := hidden ▸ .ofNames proper
  have written : (Work.await (writePartial root files (partialPath output fresh))).Only
      (Request.Archives output fresh) :=
    Work.Only.await (.inl trivial) (only_writePartial root output fresh files)
  refine Work.ends_bind.mpr ((sheltered_run hidden proper hne hs siblings (written deadline) h).mono
    fun r es₁ m₁ ⟨h₁, _⟩ => ?_)
  cases r with
  | error stop => exact fun _ h => by cases h
  | ok written =>
  refine Work.ends_bind.mpr (Work.ends_ofExcept.mpr ?_)
  cases written with
  | error reason => exact fun _ h => by cases h
  | ok measured =>
  refine Work.ends_bind.mpr (Work.ends_now.mpr (ends_request.mpr ?_))
  refine Work.ends_bind.mpr (Work.ends_ofExcept.mpr ?_)
  rcases changed_rename o m₁ (partialPath output fresh) output with ⟨hr, hop, -⟩ | ⟨⟨e, hr⟩, -⟩
  · rw [hr]
    exact fun _ _ => (h₁.rename spells hs siblings hop).1
  · rw [hr]
    exact fun _ h => by cases h

omit hne hs siblings in
/-- The removal of the hidden file leaves nothing in its place, unless it is refused. -/
theorem removePartial_gone (h : m.disk.Sheltered place)
    (found : m.disk.get? place = none ∨
      ∃ parent name, m.disk.lookupParent m.cwd (partialPath output fresh) =
        .ok (parent, .name name false)) :
    (removePartial (partialPath output fresh)).Ends (answer o) m fun _ es m' =>
      m'.disk.get? place = none ∨ o.Refuses place es := by
  have spells : (partialPath output fresh).Spells place := hidden ▸ .ofNames proper
  refine removePartial_clears h.wellFormed h.file (found.imp_right ?_)
  rintro ⟨parent, name, way⟩
  obtain rfl := Disk.lookupParent_spelled spells h.clear way
  exact ⟨parent, name, rfl, way⟩

end Hidden

/-- Nothing has changed but at the output, except where a removal was refused, and a file that was
opened is gone, except there. -/
structure Residue (o : Outside) (names : List Name) (m : Machine) (es : List (Request × Machine))
    (m' : Machine) : Prop where
  tame : m.disk.Tame m'.disk
  frame : ∀ place, ¬ names <+: place → ¬ o.Refuses place es → m'.disk.look place = m.disk.look place
  gone : ∀ place, Opens o place es → ¬ o.Refuses place es → m'.disk.get? place = none

/-- Where nothing has changed but at the output and in the place of the hidden file, nothing is left
there. -/
theorem residue_of_hidden (tame : m.disk.Tame m'.disk) (free : m.disk.get? place = none)
    (frame : ∀ x, ¬ names <+: x → ¬ place <+: x → m'.disk.look x = m.disk.look x)
    (sheltered : m'.disk.Sheltered place) (opened : ∀ x, Opens o x es → x = place)
    (gone : m'.disk.get? place = none ∨ o.Refuses place es) : Residue o names m es m' := by
  refine ⟨tame, fun x aside allowed => ?_, fun x hx allowed => ?_⟩
  · by_cases hp : place <+: x
    case neg => exact frame x aside hp
    have before : m.disk.get? x = none := by
      obtain ⟨rest, rfl⟩ := hp
      exact Disk.get?_below_missing free rest
    have after : m'.disk.get? x = none := by
      by_cases he : x = place
      · subst he
        exact gone.resolve_right allowed
      · exact sheltered.below hp he
    exact (Node.look_eq_none.mpr after).trans (Node.look_eq_none.mpr before).symm
  · obtain rfl := opened x hx
    exact gone.resolve_right allowed

/-- The way to the hidden file is that to the output. -/
theorem clear_hiddenPlace {root : Node} {name : Name} (clear : root.NoLinkAbove names)
    (start : ∀ target, root.get? [] ≠ some (.link target)) :
    root.NoLinkAbove (names.dropLast ++ [name]) := by
  intro above target hu hne
  have hup : above <+: names.dropLast := (List.prefix_concat_iff.mp hu).resolve_left hne
  rcases List.eq_nil_or_concat names with rfl | ⟨up, last, rfl⟩
  · obtain rfl := List.prefix_nil.mp hup
    exact start target
  rw [List.concat_eq_append] at clear hup
  rw [List.dropLast_concat] at hup
  refine clear above target (hup.trans (List.prefix_append _ _)) fun he => ?_
  have := hup.length_le
  rw [he, List.length_append, List.length_singleton] at this
  omega

theorem Abandoned.frame {hidden : Path} {name : Name} (hp : hidden.Spells place)
    (clear : m.disk.root.NoLinkAbove place) (h : Abandoned hidden name m m') :
    m.disk.Tame m'.disk ∧ ∀ x, ¬ place <+: x → m'.disk.look x = m.disk.look x := by
  rcases h with same | ⟨parent, started⟩
  · rw [same.disk]
    exact ⟨.refl _, fun _ _ => rfl⟩
  · obtain rfl := Disk.lookupParent_spelled hp clear started.way
    exact ⟨started.tame, started.changed⟩

theorem Delivered.frame {entries : List Zip.Entry} {fresh : String}
    (h : Delivered root files output m entries es m') (asked : ∀ e ∈ es, e.1.Archives output fresh)
    (hp : (partialPath output fresh).Spells place) (clear : m.disk.root.NoLinkAbove place)
    (wf : m.disk.root.WellFormed) (hs : output.Spells names) (siblings : Disk.Siblings names place) :
    m.disk.Tame m'.disk ∧
      ∀ x, ¬ names <+: x → ¬ place <+: x → m'.disk.look x = m.disk.look x := by
  obtain ⟨hidden, parent, name, m₁, id, dir, outName, started, he, moved⟩ := h.moved
  obtain rfl : hidden = partialPath output fresh := by
    rcases asked _ he with h | ⟨handle, bytes, h⟩ | h | h | h
    · exact h.elim
    · cases h
    · cases h
    · cases h
    · exact (Request.rename.inj h).1
  obtain rfl := Disk.lookupParent_spelled hp clear started.way
  have clear₁ := (started.tame.noNewLink wf).noLinkAbove (siblings.clear clear)
  obtain rfl := Disk.lookupParent_spelled hs clear₁ moved.way
  exact ⟨started.tame.trans moved.tame, fun x hx hp => (moved.aside x hp hx).trans (started.changed x hp)⟩

theorem deliver_residue (hs : output.Spells names) (written : output = .ofNames names)
    (wf : m.disk.root.WellFormed) (clear : m.disk.root.NoLinkAbove names)
    (base : ∀ target, m.disk.get? [] ≠ some (.link target)) (deadline : Option Nat) :
    (deliver root output files deadline).Ends (answer o) m fun _ es m' => Residue o names m es m' := by
  refine ends_deliver fun fresh m₁ same noSlash missing => ?_
  rw [← same.disk] at wf clear base
  obtain ⟨place, hidden, proper, siblings, hplace⟩ := exists_hiddenPlace hs written noSlash
  have free : m₁.disk.get? place = none := hplace ▸ missing _
  have clear : m₁.disk.root.NoLinkAbove place := hplace ▸ clear_hiddenPlace clear base
  have hne : place ≠ [] := by simp [hplace]
  have spells : (partialPath output fresh).Spells place := hidden ▸ .ofNames proper
  have start := Disk.sheltered_of_none wf clear free
  obtain ⟨parts, last⟩ := splitLast_partialPath output noSlash
  -- What is known of the work on the hidden file, and of its removal if the work stops.
  have asked := only_moveOrRemove root output fresh files deadline
  have outcome : ((writeAndMove root files (partialPath output fresh) output).onStop
      (removePartial (partialPath output fresh)) deadline).Ends (answer o) m₁ fun _ es m' =>
        (Abandoned (partialPath output fresh) (partialName output fresh) m₁ m' ∨
          ∃ entries, Delivered root files output m₁ entries es m') ∧
          (m'.disk.get? place = none ∨ o.Refuses place es) := by
    refine Work.ends_onStop.mpr (((writeAndMove_ends last missing).and
      ((writeAndMove_moved hidden proper hne hs siblings start deadline).and
        (sheltered_run hidden proper hne hs siblings
          (only_writeAndMove root output fresh files deadline) start))).mono ?_)
    rintro (stop | measured) es m₂ ⟨h, moved, sheltered, -⟩
    · obtain ⟨-, abandoned⟩ | ⟨_, _, hr, -⟩ := h
      case inr => cases hr
      have found : m₂.disk.get? place = none ∨ ∃ parent name,
          m₂.disk.lookupParent m₂.cwd (partialPath output fresh) = .ok (parent, .name name false) := by
        rcases abandoned with same₂ | ⟨parent, started⟩
        · exact .inl (same₂.disk ▸ free)
        · exact .inr ⟨parent, _, started.still⟩
      refine ((removePartial_abandoned last missing abandoned).and
        (removePartial_gone hidden proper sheltered found)).mono fun _ es' _ ⟨abandoned, gone⟩ => ?_
      exact ⟨.inl abandoned, gone.imp_right fun refused => refused.mono (List.subset_append_right _ _)⟩
    · obtain ⟨⟨_, hr⟩, -⟩ | ⟨_, entries, -, -, delivered⟩ := h
      case inl => cases hr
      exact ⟨.inr ⟨entries, delivered⟩, .inl (moved measured rfl)⟩
  refine ((outcome.and (sheltered_run hidden proper hne hs siblings asked start)).and
    asked.ends).mono ?_
  rintro r es m' ⟨⟨⟨h, gone⟩, sheltered, opened⟩, asked⟩
  have left : m₁.disk.Tame m'.disk ∧
      ∀ x, ¬ names <+: x → ¬ place <+: x → m'.disk.look x = m₁.disk.look x := by
    rcases h with abandoned | ⟨entries, delivered⟩
    · obtain ⟨tame, frame⟩ := abandoned.frame spells clear
      exact ⟨tame, fun x _ => frame x⟩
    · exact delivered.frame asked spells clear wf hs siblings
  rw [same.disk] at left free
  refine residue_of_hidden left.1 free left.2 sheltered ?_ ?_
  · refine fun x hx => (opens_cons.mp hx).elim (fun h => ?_) (opened x)
    simp [Opens] at h
  · exact gone.imp_right fun refused => refused.mono (List.subset_cons_self _ _)

end Archive

end LayerPack
