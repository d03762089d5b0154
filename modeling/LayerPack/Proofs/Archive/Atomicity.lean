import LayerPack.Proofs.Archive.Encoding
import LayerPack.Proofs.Archive.Failure
import LayerPack.Proofs.Archive.Residue
import LayerPack.Proofs.Disk.Alike
import LayerPack.Proofs.Disk.Ascent
import LayerPack.Proofs.Disk.Decide

/-! Archiving does everything or nothing. When it gives up, every file, link and directory that was there
is as it was, and the only things that are new are directories above the output. When it succeeds, the entry
that the output names is the finished archive, whatever file or link it was before, and nothing else has
changed. The output then leads to the archive, unless the entry was a link and the output itself leads
through that link. All this needs that the hidden file can be removed where it has to be. -/
namespace LayerPack

open Program Machine

variable {o : Outside} {m m' m'' : Machine} {es : List (Request × Machine)} {name : Name}

/-- No removal of a file has been refused. -/
def Outside.Allows (o : Outside) (es : List (Request × Machine)) : Prop :=
  ∀ p before, (.unlink p, before) ∈ es → o.fault before.ticks = none

theorem Outside.Allows.not_refuses {es' : List (Request × Machine)} {place : Place}
    (h : o.Allows es) (sub : es' ⊆ es) : ¬ o.Refuses place es' := by
  rintro ⟨p, before, asked, -, refused⟩
  exact refused (h p before (sub asked))

namespace Disk

variable {d d' : Disk} {cwd place dir : Place} {p output : Path} {node : Node}

/-- The path leads to something. -/
def Reaches (d : Disk) (cwd : Place) (p : Path) : Prop := ∃ found, d.resolve cwd false p = .ok found

theorem Reaches.of_look (same : ∀ place, d'.look place = d.look place) (h : d.Reaches cwd p) :
    d'.Reaches cwd p := by
  have alike : d.Alike d' := fun place => (Node.view_of_look (same place)).symm
  obtain ⟨found, hf⟩ := h
  have resolved := alike.resolve cwd false p
  rw [hf] at resolved
  cases hr : d'.resolve cwd false p with
  | error e =>
    rw [hr] at resolved
    cases resolved
  | ok found' => exact ⟨found', hr⟩

/-- Every entry of this name is a file. -/
structure Reserved (name : Name) (d : Disk) : Prop where
  wellFormed : d.root.WellFormed
  file : ∀ dir node, d.get? (dir ++ [name]) = some node → ∃ id mode content, node = .file id mode content

theorem Reserved.openWrite {truncate : Bool} {handle : Handle} (h : d.Reserved name)
    (hop : d.openWrite cwd truncate p = .ok (handle, d')) : d'.Reserved name := by
  refine ⟨(openWrite_tame hop).wellFormed h.wellFormed, fun dir node hn => ?_⟩
  rcases openWrite_ok hop with ⟨id, mode, content, hl, -, rfl⟩ | ⟨parent, other, hl, -, rfl⟩
  · split at hn
    · exact file_of_put (lookup_sound hl) (h.file dir) hn
    · exact h.file dir node hn
  · obtain ⟨⟨es, he⟩, -, -⟩ := lookup_sound hl
    exact file_of_put_name he (h.file dir) hn

theorem Reserved.erase (h : d.Reserved name) (hne : place ≠ []) {dir : Place}
    (hn : (d.erase place).get? (dir ++ [name]) = some node) :
    ∃ id mode content, node = .file id mode content := by
  by_cases hp : place <+: dir ++ [name]
  · obtain ⟨rest, hrest⟩ := hp
    rw [← hrest, get?_erase_below h.wellFormed hne] at hn
    cases hn
  · exact file_of_look (look_erase hp) (h.file dir) hn

theorem Reserved.rename {parts : List Bytes} (hs : splitLast p.bytes = (parts, .name name false))
    (h : d.Reserved name) (hop : d.rename cwd p output = .ok d') : d'.Reserved name := by
  refine ⟨rename_wellFormed h.wellFormed hop, fun dir node hn => ?_⟩
  obtain ⟨parent, last, _, target, other, _, hsrc, hdst, hmove⟩ := rename_ok hop
  obtain ⟨-, -, hlast, -⟩ := lookupParent_eq_ok.mp hsrc
  rw [hs] at hlast
  cases hlast
  obtain ⟨moved, hmoved, -, ⟨rfl, -⟩ | ⟨rfl, -, -⟩⟩ := move_ok hmove
  · exact h.file dir node hn
  -- what was moved has the name itself, so it is a file
  obtain ⟨id, mode, content, rfl⟩ := h.file parent moved hmoved
  obtain ⟨es, he⟩ := dir_of_lookupParent hdst
  have kept := (changedAt_erase d (parent ++ [name])).keepsWays (noWay_of_file hmoved)
  obtain ⟨-, es', he'⟩ := Node.look_eq_dir.mp (kept.dir target (Node.look_of_get? he))
  exact file_of_put_name he' (fun node => h.erase (by simp)) hn

/-- A file stands in the entry that a path names, in the place of what was no directory, and nothing else
has changed. -/
structure Replaced (d : Disk) (cwd : Place) (output : Path) (file : Node) (place : Place) (d' : Disk) :
    Prop where
  seat : d.seat cwd output = some place
  noDir : ∀ es, d.get? place ≠ some (.dir es)
  there : d'.get? place = some file
  frame : ∀ q, ¬ place <+: q → d'.look q = d.look q
  leads : (∀ follow, d'.resolve cwd follow output = .ok (place, file)) ∨
    (∃ target, d.get? place = some (.link target)) ∧ ¬ d.StandsApart cwd output

/-- If the path does not lead there, then because it leads through a link that stood there. -/
theorem leads_or_link {id mode : Nat} {content : ByteArray} {base : Disk}
    (way : base.lookupParent cwd output = .ok (dir, .name name false)) (grows : base.Grows d)
    (noDir : ∀ es, base.get? (dir ++ [name]) ≠ some (.dir es))
    (moved : d.Moved cwd place output (.file id mode content) dir name d') :
    (∀ follow, d'.resolve cwd follow output = .ok (dir ++ [name], .file id mode content)) ∨
      (∃ target, base.get? (dir ++ [name]) = some (.link target)) ∧ ¬ base.StandsApart cwd output := by
  by_cases apart : base.StandsApart cwd output
  · left
    obtain ⟨es, he⟩ := dir_of_lookupParent way
    have replaced := apart dir name way id mode content
    have kept := lookupParent_keeps (grows.put he).keepsWays replaced
    exact fun follow => resolve_file (lookupParent_keeps moved.ways kept) moved.there follow
  · refine .inr ⟨Classical.byContradiction fun noLink => apart ?_, apart⟩
    refine standsApart_of_noWay fun dir' name' way' => ?_
    cases way.symm.trans way'
    exact ⟨noDir, fun target h => noLink ⟨target, h⟩⟩

/-- A new file that is moved away from its place has left nothing there, and it has not taken the place of a
directory. -/
theorem rename_leaves {id mode : Nat} {content : ByteArray} {parent : Place} {last : Name}
    (wf : d.root.WellFormed) (hp : d.lookupParent cwd p = .ok (parent, .name name false))
    (hg : d.get? (parent ++ [name]) = some (.file id mode content))
    (hop : d.rename cwd p output = .ok d')
    (way : d.lookupParent cwd output = .ok (dir, .name last false)) (hne : name ≠ last) :
    d'.get? (parent ++ [name]) = none ∧ ∀ es, d.get? (dir ++ [last]) ≠ some (.dir es) := by
  obtain ⟨_, _, _, _, _, _, hsrc, hdst, hmove⟩ := rename_ok hop
  cases hp.symm.trans hsrc
  cases way.symm.trans hdst
  obtain ⟨node, hn, -, ⟨-, he⟩ | ⟨rfl, aside, noDir⟩⟩ := move_ok hmove
  · exact (hne (List.singleton_inj.mp (List.append_inj' he rfl).2)).elim
  cases hg.symm.trans hn
  refine ⟨?_, noDir rfl⟩
  have above := not_prefix_of_noDir hg (noDir rfl) (Ne.symm aside)
  refine Node.look_eq_none.mp ((look_put above).trans (Node.look_eq_none.mpr ?_))
  have := get?_erase_below wf (p := parent ++ [name]) (by simp) []
  rwa [List.append_nil] at this

end Disk

namespace Archive

variable {root hidden output : Path} {files : List Path} {parent : Place} {fresh : String}
  {deadline : Option Nat} {entries : List Zip.Entry}

theorem reserved_step {parts : List Bytes}
    (hs : Disk.splitLast (partialPath output fresh).bytes = (parts, .name name false)) {q : Request}
    (hq : q.Archives output fresh) (h : m.disk.Reserved name) :
    (answer o q m).2.disk.Reserved name := by
  have same {m' : Machine} (hm : Same m m') : m'.disk.Reserved name := hm.disk ▸ h
  rcases hq with hq | ⟨handle, bytes, rfl⟩ | rfl | rfl | rfl
  · exact same (same_quiet hq o m)
  · rcases changed_append o m handle bytes with ⟨-, hop, -⟩ | ⟨-, hm⟩
    · rw [← Except.ok.inj hop]
      exact ⟨(Disk.append_tame handle bytes).wellFormed h.wellFormed, fun dir _ =>
        Disk.file_of_append handle bytes (h.file dir)⟩
    · exact same hm
  · rcases opened_openWrite o m true (partialPath output fresh) with ⟨handle, -, hop, -⟩ | ⟨-, hm⟩
    · exact h.openWrite hop
    · exact same hm
  · rcases changed_unlink o m (partialPath output fresh) with ⟨-, hop, -⟩ | ⟨-, hm⟩
    · refine ⟨(Disk.unlink_tame hop).wellFormed h.wellFormed, fun dir node hn => ?_⟩
      obtain ⟨_, _, _, -, -, -, hd⟩ := Disk.unlink_ok hop
      rw [hd] at hn
      exact h.erase (by simp) hn
    · exact same hm
  · rcases changed_rename o m (partialPath output fresh) output with ⟨-, hop, -⟩ | ⟨-, hm⟩
    · exact h.rename hs hop
    · exact same hm

/-- Once the hidden file is gone, all is as before. -/
theorem Started.cleared (h : Started m hidden parent name m')
    (gone : m'.disk.get? (parent ++ [name]) = none) (place : Place) :
    m'.disk.look place = m.disk.look place := by
  by_cases hp : parent ++ [name] <+: place
  · obtain ⟨rest, rfl⟩ := hp
    have before := Node.look_eq_none.mpr (Disk.get?_below_missing h.free rest)
    have after := Node.look_eq_none.mpr (Disk.get?_below_missing gone rest)
    exact after.trans before.symm
  · exact h.changed place hp

theorem Abandoned.cwd (h : Abandoned hidden name m m') : m'.cwd = m.cwd := by
  rcases h with same | ⟨parent, started⟩
  · exact same.cwd
  · exact started.cwd

/-- What has been worked on besides is gone with the hidden file, if that may be removed. -/
theorem removePartial_undoes {parts : List Bytes}
    (hs : Disk.splitLast hidden.bytes = (parts, .name name false))
    (missing : ∀ dest, m.disk.get? (dest ++ [name]) = none) (reserved : m'.disk.Reserved name)
    (h : Abandoned hidden name m m') :
    (removePartial hidden).Ends (answer o) m' fun _ es m'' =>
      m''.cwd = m.cwd ∧ (o.Allows es → ∀ place, m''.disk.look place = m.disk.look place) := by
  rcases h with same | ⟨parent, started⟩
  · have none (dest : Place) : m'.disk.get? (dest ++ [name]) = none := by rw [same.disk, missing]
    refine (removePartial_missing hs none).mono fun _ _ _ same' => ?_
    have same := same.trans same'
    exact ⟨same.cwd, fun _ _ => by rw [same.disk]⟩
  · have clears := removePartial_clears (o := o) reserved.wellFormed (reserved.file parent)
      (.inr ⟨parent, name, rfl, started.still⟩)
    refine ((removePartial_ends started).and clears).mono ?_
    rintro _ es m'' ⟨started, gone⟩
    refine ⟨started.cwd, fun allowed => started.cleared ?_⟩
    exact gone.resolve_right (allowed.not_refuses (List.Subset.refl _))

/-- The hidden file that was renamed has become the entry of the output, and nothing is left of it. -/
theorem Renamed.replaced (wf : m.disk.root.WellFormed)
    (h : Renamed root files (partialPath output fresh) output (partialName output fresh) m entries es m') :
    m'.cwd = m.cwd ∧ ∃ id place,
      m.disk.Replaced m.cwd output (.file id Disk.newMode (Zip.encode entries)) place m'.disk := by
  obtain ⟨parent, id, m₁, started, holds, -, hop, hcwd⟩ := h.moved
  obtain ⟨dir, last, moved⟩ := Disk.rename_file started.still holds hop
  have free := Disk.noWay_of_file holds
  have back : m₁.disk.ChangedAt (parent ++ [partialName output fresh]) m.disk :=
    fun q hq => (started.changed q hq).symm
  have way := Disk.lookupParent_keeps (back.keepsWays free) moved.way
  -- the hidden file is neither the output nor above it
  have hne : partialName output fresh ≠ last := by
    obtain ⟨-, -, hlast, -⟩ := Disk.lookupParent_eq_ok.mp way
    obtain ⟨parts, -, proper⟩ := Disk.splitLast_name (Prod.ext rfl hlast)
    exact partialName_ne (Path.fileName?_of_parts parts proper)
  obtain ⟨gone, noDir⟩ := Disk.rename_leaves (started.tame.wellFormed wf) started.still holds hop
    moved.way hne
  have aside : ¬ parent ++ [partialName output fresh] <+: dir ++ [last] := by
    intro hp
    rcases List.prefix_concat_iff.mp hp with he | hp
    · exact hne (List.singleton_inj.mp (List.append_inj' he rfl).2)
    · obtain ⟨es, he⟩ := Disk.dir_of_lookupParent moved.way
      exact (free.below hp).dir es he
  have noDir' (es : Entries) : m.disk.get? (dir ++ [last]) ≠ some (.dir es) := by
    intro he
    obtain ⟨-, es', he'⟩ := Node.look_eq_dir.mp
      ((started.changed _ aside).trans (Node.look_of_get? he))
    exact noDir es' he'
  rw [started.cwd] at way moved hcwd
  refine ⟨hcwd, id, dir ++ [last], Disk.seat_of_lookupParent way, noDir', moved.there, ?_, ?_⟩
  · intro q hq
    by_cases hp : parent ++ [partialName output fresh] <+: q
    · obtain ⟨rest, rfl⟩ := hp
      have before := Node.look_eq_none.mpr (Disk.get?_below_missing started.free rest)
      have after := Node.look_eq_none.mpr (Disk.get?_below_missing gone rest)
      exact after.trans before.symm
    · exact (moved.aside q hp hq).trans (started.changed q hp)
  · exact Disk.leads_or_link way started.grows noDir' moved

/-- What was delivered has replaced the entry of the output. If nothing was, nothing has changed. -/
theorem deliver_replaces (wf : m.disk.root.WellFormed) (deadline : Option Nat) :
    (deliver root output files deadline).Ends (answer o) m fun r es m' => m'.cwd = m.cwd ∧
      (((∃ stop, r = .error stop) ∧
          (o.Allows es → ∀ place, m'.disk.look place = m.disk.look place)) ∨
        ∃ measured entries, r = .ok measured ∧ Measures entries measured ∧
          (∃ d, m.disk.Grows d ∧ List.Forall₂ (EntryOf root d m.cwd) files entries) ∧
          ∃ id place, m.disk.Replaced m.cwd output (.file id Disk.newMode (Zip.encode entries)) place
            m'.disk) := by
  refine ends_deliver fun fresh m₁ same noSlash missing => ?_
  rw [← same.disk] at wf
  rw [← same.disk, ← same.cwd]
  obtain ⟨parts, hs⟩ := splitLast_partialPath output noSlash
  have reserved : m₁.disk.Reserved (partialName output fresh) :=
    ⟨wf, fun dest node hn => by cases (missing dest).symm.trans hn⟩
  have worked : (writeAndMove root files (partialPath output fresh) output deadline).Ends (answer o) m₁
      fun _ _ m₂ => m₂.disk.Reserved (partialName output fresh) :=
    (only_writeAndMove root output fresh files deadline).run_inv (I := fun m : Machine => m.disk.Reserved _)
      (fun q m hq h => reserved_step hs hq h) reserved
  refine Work.ends_onStop.mpr (((writeAndMove_renames hs missing).and worked).mono ?_)
  rintro (stop | measured) es m₂ ⟨⟨⟨_, hr⟩, abandoned⟩ | ⟨_, entries, hr, measures, renamed⟩, reserved⟩
  · refine (removePartial_undoes hs missing reserved abandoned).mono ?_
    rintro _ es' m₃ ⟨hcwd, undone⟩
    refine ⟨hcwd, .inl ⟨⟨stop, rfl⟩, fun allowed => undone fun p before asked => ?_⟩⟩
    exact allowed p before (by simp [asked])
  · cases hr
  · cases hr
  · cases hr
    obtain ⟨hcwd, replaced⟩ := renamed.replaced wf
    exact ⟨hcwd, .inr ⟨measured, entries, rfl, measures, renamed.entries, replaced⟩⟩

/-- Archiving that has given up. Only directories above the output are new, and none if the output led to
something. If it led nowhere, it still does, unless it is written as a way that goes up again. -/
structure Undone (output : Path) (m m' : Machine) : Prop where
  cwd : m'.cwd = m.cwd
  paved : Disk.Paved m.cwd output m.disk m'.disk
  kept : m.disk.Reaches m.cwd output → ∀ place, m'.disk.look place = m.disk.look place
  missing : dotdot ∉ splitSlash output.bytes → ¬ m.disk.Reaches m.cwd output →
    ¬ m'.disk.Reaches m'.cwd output

theorem undone_of_look (hcwd : m'.cwd = m.cwd)
    (same : ∀ place, m'.disk.look place = m.disk.look place) : Undone output m m' where
  cwd := hcwd
  paved := by
    refine ⟨fun place _ => same place, fun place none there => (there ?_).elim⟩
    exact Node.look_eq_none.mp ((same place).trans (Node.look_eq_none.mpr none))
  kept _ := same
  missing _ nowhere reached := by
    rw [hcwd] at reached
    exact nowhere (reached.of_look fun place => (same place).symm)

theorem Undone.trans (h : Undone output m m') (h' : Undone output m' m'') : Undone output m m'' where
  cwd := h'.cwd.trans h.cwd
  paved := by
    have paved := h'.paved
    rw [h.cwd] at paved
    exact h.paved.trans paved
  kept reached place := by
    have still := reached.of_look (h.kept reached)
    rw [← h.cwd] at still
    exact (h'.kept still place).trans (h.kept reached place)
  missing down nowhere := h'.missing down (h.missing down nowhere)

theorem undone_step {q : Request} (hq : q.Quiet ∨ ∃ p, Path.Over p output ∧ q = .mkdir p) (o : Outside)
    (m : Machine) : Undone output m (answer o q m).2 := by
  have same {m' : Machine} (h : Same m m') : Undone output m m' :=
    undone_of_look h.cwd fun place => by rw [h.disk]
  rcases hq with quiet | ⟨p, higher, rfl⟩
  · exact same (same_quiet quiet o m)
  rcases changed_mkdir o m p with ⟨-, made, hcwd⟩ | ⟨-, h⟩
  · exact {
      cwd := hcwd
      paved := Disk.paved_of_mkdir higher made
      kept := fun ⟨_, found⟩ => (Disk.mkdir_of_found higher found made).elim
      missing := fun down _ ⟨found, reached⟩ =>
        Disk.not_found_of_mkdir higher down made found (hcwd ▸ reached) }
  · exact same h

/-- Collecting the files and making the directories of the output can be undone at any time. -/
theorem prepare_undone (root output : Path) (deadline : Option Nat) :
    (prepare root output deadline).Ends (answer o) m fun _ _ m' => Undone output m m' :=
  (only_prepare root output (fun _ => .inl) (fun p higher => .inr ⟨p, higher, rfl⟩) deadline).run_rel
    (R := Undone output) (fun _ => undone_of_look rfl fun _ => rfl) Undone.trans
    (fun _ m hq => undone_step hq o m) m

/-- Every failure names the output, and without a deadline there is no other stop. -/
theorem write_failure (root output : Path) :
    (write root output).Fails fun cause => ∃ reason, cause = .archive output reason := by
  have named (reason : String) : ∃ reason', Error.archive output reason = .archive output reason' :=
    ⟨reason, rfl⟩
  have mapped {ε α : Type} {f : ε → String} {r : Except ε α} (cause : Error)
      (h : r.mapError (fun e => Error.archive output (f e)) = .error cause) :
      ∃ reason, cause = .archive output reason := by
    cases r with
    | ok => cases h
    | error e =>
      cases h
      exact named _
  have parent : (makeParent output).Fails fun cause => ∃ reason, cause = .archive output reason := by
    unfold makeParent
    split
    · exact Work.fails_pure ()
    · exact (Work.fails_await _).bind fun made => Work.fails_ofExcept mapped
  have prepared : (prepare root output).Fails fun cause => ∃ reason, cause = .archive output reason :=
    (Work.fails_now _).bind fun _ => (Work.fails_await _).bind fun _ =>
      (Work.fails_ofExcept mapped).bind fun files => (Work.fails_failIf (named _)).bind fun _ =>
      parent.bind fun _ => Work.fails_pure files
  have moved (files : List Path) (hidden : Path) : (writeAndMove root files hidden output).Fails
      fun cause => ∃ reason, cause = .archive output reason :=
    (Work.fails_await _).bind fun _ => (Work.fails_ofExcept mapped).bind fun measured =>
      (Work.fails_now _).bind fun _ => (Work.fails_ofExcept mapped).bind fun _ =>
      Work.fails_pure measured
  have delivered (files : List Path) : (deliver root output files).Fails
      fun cause => ∃ reason, cause = .archive output reason :=
    (Work.fails_now _).bind fun _ => (moved files _).onStop _
  exact prepared.bind fun files => (delivered files).bind fun _ =>
    (Work.fails_now _).bind fun _ => Work.fails_pure _

/-- A finished archive of all the files below the root has replaced the entry that the output names. -/
structure Published (root output : Path) (m : Machine) (summary : Summary) (m' : Machine) : Prop where
  placed : ∃ entries d id place, Complete root m entries ∧ Disk.Paved m.cwd output m.disk d ∧
    d.Replaced m.cwd output (.file id Disk.newMode (Zip.encode entries)) place m'.disk ∧
    summary.files = entries.length ∧ Measures entries (summary.bytes, summary.sha256)
  path : summary.path = output
  cwd : m'.cwd = m.cwd

theorem write_publishes (wf : m.disk.root.WellFormed) (deadline : Option Nat) :
    (write root output deadline).Ends (answer o) m fun r es m' =>
      ((∃ stop, r = .error stop) ∧ (o.Allows es → Undone output m m')) ∨
        ∃ summary, r = .ok summary ∧ Published root output m summary m' := by
  refine Work.ends_bind.mpr ((prepare_ends.and (prepare_undone root output deadline)).mono ?_)
  rintro (stop | files) es m₁ ⟨⟨grown, prepared⟩, undone⟩
  · exact .inl ⟨⟨stop, rfl⟩, fun _ => undone⟩
  obtain ⟨hne, collected⟩ := prepared files rfl
  refine Work.ends_bind.mpr ((deliver_replaces (grown.2.1.wellFormed wf) deadline).mono ?_)
  rintro r es₂ m₂ ⟨hcwd, ⟨⟨stop, rfl⟩, same⟩ | ⟨⟨bytes, sha256⟩, entries, rfl, measures, read, delivered⟩⟩
  · refine .inl ⟨⟨stop, rfl⟩, fun allowed => undone.trans (undone_of_look hcwd (same ?_))⟩
    exact fun p before asked => allowed p before (by simp [asked])
  obtain ⟨d, grows, hall⟩ := read
  obtain ⟨id, place, replaced⟩ := delivered
  rw [grown.2.2] at hall replaced
  refine Work.ends_bind.mpr (Work.ends_now.mpr (ends_request.mpr (.inr ⟨_, rfl, ?_, rfl, ?_⟩)))
  · have complete : Complete root m entries :=
      ⟨files, d, hne, collected, grown.1.trans grows, hall⟩
    exact ⟨entries, m₁.disk, id, place, complete, undone.paved, replaced, hall.length_eq, measures⟩
  · exact hcwd.trans grown.2.2

/-- When archiving gives up, it fails with the output's path and leaves everything as it was but for
directories made above the output. When it succeeds, the entry of the output is the finished archive, and
again nothing else is new but directories above. -/
theorem archiving_is_atomic (wf : m.disk.root.WellFormed) (root output : Path) (deadline : Option Nat)
    (o : Outside) :
    (write root output deadline).Ends (answer o) m fun r es m' =>
      (∀ stop, r = .error stop →
        ((stop = .late ∧ deadline ≠ none) ∨ ∃ reason, stop = .failed (.archive output reason)) ∧
          (o.Allows es → Undone output m m')) ∧
      ∀ summary, r = .ok summary → Published root output m summary m' := by
  refine ((write_failure root output).ends.and (write_publishes wf deadline)).mono ?_
  rintro r es m' ⟨failure, (⟨⟨stop, rfl⟩, undone⟩ | ⟨summary, rfl, published⟩)⟩
  · refine ⟨fun stop' h => ?_, fun _ h => by cases h⟩
    cases h
    refine ⟨(failure stop rfl).imp_right ?_, undone⟩
    rintro ⟨cause, rfl, reason, rfl⟩
    exact ⟨reason, rfl⟩
  · refine ⟨fun _ h => (by cases h), fun summary' h => ?_⟩
    cases h
    exact published

/-- The small tree beside a directory and a link to it. -/
def smallPlaces : Machine := .small [("tree", .dir smallTree), ("out", .dir []),
  ("old", .link (Bytes.ofString "out"))]

set_option maxRecDepth 100000 in
/-- A directory is not replaced by an archive and all is undone; the link to it is replaced. -/
theorem small_places_atomic :
    smallPlaces.disk.root.WellFormed ∧
    ((write (.ofString "/tree") (.ofString "/out") none).Ends (answer (.small [])) smallPlaces
      fun r _ m' => (∃ reason, r = .error (.failed (.archive (.ofString "/out") reason))) ∧
        Undone (.ofString "/out") smallPlaces m') ∧
    (write (.ofString "/tree") (.ofString "/old") none).Ends (answer (.small [])) smallPlaces
      fun r _ m' => ∃ summary, r = .ok summary ∧
        Published (.ofString "/tree") (.ofString "/old") smallPlaces summary m' := by
  have wf : smallPlaces.disk.root.WellFormed := by decide +kernel
  have refused : (write (.ofString "/tree") (.ofString "/out") none).Ends (answer (.small []))
      smallPlaces fun r _ _ => r.toOption.isNone := by
    unfold Ends
    decide +kernel
  have replaced : (write (.ofString "/tree") (.ofString "/old") none).Ends (answer (.small []))
      smallPlaces fun r _ _ => r.toOption.isSome := by
    unfold Ends
    decide +kernel
  have allowed (es : List (Request × Machine)) : (Outside.small []).Allows es := fun _ _ _ => rfl
  have atomic (output : Path) := archiving_is_atomic wf (.ofString "/tree") output none (.small [])
  refine ⟨wf, (refused.and (atomic _)).mono ?_, (replaced.and (atomic _)).mono ?_⟩
  · rintro (stop | summary) es m' ⟨hr, given, -⟩
    · obtain ⟨⟨-, h⟩ | ⟨reason, rfl⟩, undone⟩ := given stop rfl
      · exact (h rfl).elim
      · exact ⟨⟨reason, rfl⟩, undone (allowed es)⟩
    · cases hr
  · rintro (stop | summary) es m' ⟨hr, -, published⟩
    · cases hr
    · exact ⟨summary, rfl, published summary rfl⟩

/-- The small tree beside a directory with a link to itself. -/
def smallLoop : Machine := .small [("tree", .dir smallTree),
  ("d", .dir [(Bytes.ofString "x", .link (Bytes.ofString "/d"))])]

set_option maxRecDepth 100000 in
/-- An archive that takes the place of a link is not found by a path through this link. And a path that
goes up from a directory that was missing leads somewhere when the directory has been made. -/
theorem output_lost_and_output_found :
    ((write (.ofString "/tree") (.ofString "/d/x/x") none).Ends (answer (.small [])) smallLoop
      fun r _ m' => (∃ summary, r = .ok summary) ∧
        ∀ follow found, m'.disk.resolve m'.cwd follow (.ofString "/d/x/x") ≠ .ok found) ∧
    (write (.ofString "/tree") (.ofString "/new/../d") none).Ends (answer (.small [])) smallLoop
      fun r _ m' => (∃ stop, r = .error stop) ∧ ¬ smallLoop.disk.Reaches [] (.ofString "/new/../d") ∧
        m'.disk.Reaches m'.cwd (.ofString "/new/../d") := by
  have lost : (write (.ofString "/tree") (.ofString "/d/x/x") none).Ends (answer (.small [])) smallLoop
      fun r _ m' => r.toOption.isSome ∧
        ∀ follow, (m'.disk.resolve m'.cwd follow (.ofString "/d/x/x")).toOption.isNone := by
    unfold Ends
    decide +kernel
  have gained : (write (.ofString "/tree") (.ofString "/new/../d") none).Ends (answer (.small []))
      smallLoop fun r _ m' => r.toOption.isNone ∧
        (m'.disk.resolve m'.cwd false (.ofString "/new/../d")).toOption.isSome := by
    unfold Ends
    decide +kernel
  have nowhere : (smallLoop.disk.resolve [] false (.ofString "/new/../d")).toOption.isNone := by
    decide +kernel
  refine ⟨lost.mono ?_, gained.mono ?_⟩
  · rintro (stop | summary) _ m' ⟨hr, none⟩
    · cases hr
    · refine ⟨⟨summary, rfl⟩, fun follow found h => ?_⟩
      have := none follow
      rw [h] at this
      cases this
  · rintro (stop | summary) _ m' ⟨hr, some⟩
    · refine ⟨⟨stop, rfl⟩, ?_, ?_⟩
      · rintro ⟨found, h⟩
        rw [h] at nowhere
        cases nowhere
      · cases h : m'.disk.resolve m'.cwd false (.ofString "/new/../d") with
        | error e =>
          rw [h] at some
          cases some
        | ok found => exact ⟨found, h⟩
    · cases hr

end Archive

end LayerPack
