import LayerPack.Proofs.Archive.Fingerprint

/-! Where a tree stands, how the path to it is written, in what order it was made, and what it holds
besides its regular files does not show. Two trees with the same files have the same digest, and with
the same permissions their archives have the same entries. What can differ is whether the system lets
the files be read. -/
namespace LayerPack

open Program Machine

namespace Archive

section Failure

variable {σ : Type} {answer : Answers σ} {s : σ}

theorem recordsOf_fails (root : Path) (files : List Path) (deadline : Option Nat) :
    (recordsOf root files deadline).Ends answer s fun r es _ => ∀ cause, r = .error (.failed cause) →
      Quotes answer es cause.message ∨ ∃ p ∈ files, ∃ text, entryName root p = .error text := by
  induction files generalizing s with
  | nil => exact fun _ h => by cases h
  | cons p rest ih =>
    refine Work.ends_bind.mpr (Work.ends_ofExcept.mpr ?_)
    cases hname : entryName root p with
    | error text => exact fun _ _ => .inr ⟨p, List.mem_cons_self, text, hname⟩
    | ok name =>
      have waited : (Work.await (readForHash p) deadline).Ends answer s fun r es _ =>
          r = .error .late ∨ ∃ read, r = .ok read ∧ ∀ cause, read = .error cause →
            ∃ what e, Failed answer es e ∧ cause = .files what p e := by
        apply Work.ends_waited fun s => readForHash_fails p
        intro read es es' sub h cause hc
        obtain ⟨what, e, failed, he⟩ := h cause hc
        exact ⟨what, e, failed.mono sub, he⟩
      refine Work.ends_bind.mpr (waited.mono ?_)
      rintro _ es s' (rfl | ⟨read, rfl, h⟩)
      · exact fun _ h => by cases h
      refine Work.ends_bind.mpr (Work.ends_ofExcept.mpr ?_)
      cases read with
      | error cause =>
        rintro _ ⟨⟩
        obtain ⟨what, e, failed, rfl⟩ := h cause rfl
        exact .inl ⟨e, _, failed.mono (by simp), Error.message_files what p e⟩
      | ok content =>
        refine Work.ends_bind.mpr (ih.mono ?_)
        rintro (stop | bytes) es' s'' h
        · rintro cause ⟨⟩
          refine (h cause rfl).imp (fun quotes => quotes.mono (by simp)) ?_
          exact fun ⟨q, hq, text, hname⟩ => ⟨q, List.mem_cons_of_mem _ hq, text, hname⟩
        · exact fun _ h => by cases h

end Failure

variable {o o' : Outside} {m m' : Machine} {root root' : Path} {tree tree' : Node}
  {place place' : Place} {es es' : Entries} {deadline deadline' : Option Nat}

/-- There is no digest because the system refused something, or because a file has no name inside an
archive. -/
theorem treeDigest_fails (wf : m.disk.root.WellFormed)
    (hroot : m.disk.resolve m.cwd true root = .ok (place, .dir es)) :
    (treeDigest root deadline).Ends (answer o) m fun r trace _ =>
      ∀ cause, r = .error (.failed cause) →
        Quotes (answer o) trace cause.message ∨ TooDeep root (.dir es) cause.message ∨
          ∃ files, Files.Collected m.disk m.cwd root files ∧
            ∃ p ∈ files, ∃ text, entryName root p = .error text := by
  refine Work.ends_bind.mpr (ends_await (fun _ _ _ _ h => by cases h) fun m₁ same₁ => ?_)
  have wf₁ : m₁.disk.root.WellFormed := same₁.disk ▸ wf
  have hroot₁ : m₁.disk.resolve m₁.cwd true root = .ok (place, .dir es) := by
    rw [same₁.disk, same₁.cwd, hroot]
  refine ((Files.collect_ends root).and (Files.collect_fails wf₁ hroot₁)).mono ?_
  rintro collected es₂ m₂ ⟨⟨-, hc⟩, hf⟩ es₃ m₃ sub -
  refine ⟨?_, fun _ h => by cases h⟩
  refine Work.ends_bind.mpr (Work.ends_ofExcept.mpr ?_)
  cases collected with
  | error e =>
    rintro _ ⟨⟩
    refine (hf e rfl).imp (fun quotes => quotes.mono fun x hx => ?_) .inl
    simp [sub hx]
  | ok files =>
    have collected := hc files rfl
    rw [same₁.disk, same₁.cwd] at collected
    refine Work.ends_bind.mpr ((recordsOf_fails root files deadline).mono ?_)
    rintro (stop | bytes) es₄ m₄ h
    · rintro cause ⟨⟩
      refine (h cause rfl).imp (fun quotes => quotes.mono fun x hx => by simp [hx]) ?_
      exact fun named => .inr ⟨files, collected, named⟩
    · exact fun _ h => by cases h

/-- The deadline struck, or the system refused something and the failure says so. -/
inductive Stalled {α : Type} (o : Outside) (root : Path) (tree : Node)
    (trace : List (Request × Machine)) : Except Stop α → Prop
  | late : Stalled o root tree trace (.error .late)
  | refused (cause : Error) (h : Quotes (answer o) trace cause.message) :
    Stalled o root tree trace (.error (.failed cause))
  | tooDeep (cause : Error) (h : TooDeep root tree cause.message) :
    Stalled o root tree trace (.error (.failed cause))

/-- The files of a tree with their permission bits and contents, in the order of their places. -/
def layerOf (tree : Node) : List (List Name × Nat × ByteArray) :=
  tree.told fun mode content => (mode % 0o1000, content)

/-- A tree has a file with permission bits and a content. -/
def Grants (tree : Node) (place : List Name) (bits : Nat) (content : ByteArray) : Prop :=
  ∃ id mode, tree.get? place = some (.file id mode content) ∧ mode % 0o1000 = bits

/-- Two trees have files at the same places, with the same permission bits and contents. -/
def SameLayer (tree tree' : Node) : Prop :=
  ∀ place bits content, Grants tree place bits content ↔ Grants tree' place bits content

theorem mem_layerOf (wf : tree.WellFormed) {place : List Name} {bits : Nat} {content : ByteArray} :
    (place, bits, content) ∈ layerOf tree ↔ Grants tree place bits content := by
  rw [layerOf, Node.mem_told wf]
  constructor
  · rintro ⟨id, mode, _, hg, heq⟩
    cases heq
    exact ⟨id, mode, hg, rfl⟩
  · rintro ⟨id, mode, hg, rfl⟩
    exact ⟨id, mode, content, hg, rfl⟩

theorem layerOf_eq_iff (wf : tree.WellFormed) (wf' : tree'.WellFormed) :
    layerOf tree = layerOf tree' ↔ SameLayer tree tree' := by
  rw [layerOf, layerOf, Node.told_eq_iff wf wf']
  constructor
  · intro h place bits content
    rw [← mem_layerOf wf, ← mem_layerOf wf']
    exact h place (bits, content)
  · rintro h place ⟨bits, content⟩
    rw [← layerOf, ← layerOf, mem_layerOf wf, mem_layerOf wf', h]

theorem SameLayer.symm (h : SameLayer tree tree') : SameLayer tree' tree :=
  fun place bits content => (h place bits content).symm

theorem SameFiles.symm (h : SameFiles tree tree') : SameFiles tree' tree :=
  fun place content => (h place content).symm

theorem SameLayer.sameFiles (h : SameLayer tree tree') : SameFiles tree tree' := by
  intro place content
  constructor
  · rintro ⟨id, mode, hg⟩
    obtain ⟨id', mode', hg', -⟩ := (h place _ content).mp ⟨id, mode, hg, rfl⟩
    exact ⟨id', mode', hg'⟩
  · rintro ⟨id, mode, hg⟩
    obtain ⟨id', mode', hg', -⟩ := (h place _ content).mpr ⟨id, mode, hg, rfl⟩
    exact ⟨id', mode', hg'⟩

/-- Archives of both trees have the same entries in the same order. -/
theorem SameLayer.entries_eq {entries entries' : List Zip.Entry} (h : SameLayer tree tree')
    (wf : tree.WellFormed) (wf' : tree'.WellFormed) (packs : Packs tree entries)
    (packs' : Packs tree' entries') : entries = entries' := by
  have written (tree : Node) : tree.regularFiles.map factsOf =
      (layerOf tree).map fun file => (joinSlash file.1, file.2) := by
    rw [layerOf, Node.told, List.map_map]
    rfl
  apply List.map_injective_iff.mpr facts_injective
  rw [packs.files, packs'.files, written, written, (layerOf_eq_iff wf wf').mpr h]

/-- A tree with the same files cannot be archived for the same reasons. -/
theorem Unfit.of_sameFiles (same : SameFiles tree tree') (h : Unfit tree) : Unfit tree' := by
  have moved {place : List Name} {node : Node} {tree tree' : Node} (same : SameFiles tree tree')
      (hg : tree.get? place = some node) (hf : node.isFile = true) :
      ∃ node', tree'.get? place = some node' ∧ node'.isFile = true := by
    cases node with
    | dir | link => cases hf
    | file id mode content =>
      obtain ⟨id', mode', hg'⟩ := (same place content).mp ⟨id, mode, hg⟩
      exact ⟨_, hg', rfl⟩
  cases h with
  | empty none =>
    refine .empty fun place node hg => ?_
    by_contra hf
    obtain ⟨node', hg', hf'⟩ := moved same.symm hg (by simpa using hf)
    rw [none place node' hg'] at hf'
    cases hf'
  | nameless place node hg hf hn =>
    obtain ⟨node', hg', hf'⟩ := moved same hg hf
    exact .nameless place node' hg' hf' hn

section Elsewhere

variable (wf : m.disk.root.WellFormed) (wf' : m'.disk.root.WellFormed)
  (hroot : m.disk.resolve m.cwd true root = .ok (place, .dir es))
  (hroot' : m'.disk.resolve m'.cwd true root' = .ok (place', .dir es'))
include wf wf' hroot hroot'

/-- The digest of a tree is had again wherever the same files can be read. -/
theorem digested_again {digest : String} (same : SameFiles (.dir es) (.dir es'))
    (made : Digested m.disk m.cwd root digest) :
    (treeDigest root' deadline').Ends (answer o') m' fun r trace _ =>
      r = .ok digest ∨ Stalled o' root' (.dir es') trace r := by
  have wft : (Node.dir es).WellFormed :=
    wf.get? (p := place) (Disk.lookup_sound (Disk.resolve_ok.mp hroot))
  have wft' : (Node.dir es').WellFormed :=
    wf'.get? (p := place') (Disk.lookup_sound (Disk.resolve_ok.mp hroot'))
  have known := (feed_of_digested wf hroot made).1
  obtain ⟨entries, packs, -, -⟩ := packs_of_digested wf hroot made
  refine ((treeDigest_ends root' deadline').and (treeDigest_fails wf' hroot')).mono ?_
  rintro ((cause | _) | digest') trace _ ⟨⟨-, done⟩, failed⟩
  · rcases failed cause rfl with quotes | deep | ⟨files, collected, p, hp, text, hname⟩
    · exact .inr (.refused cause quotes)
    · exact .inr (.tooDeep cause deep)
    -- a path that is no text would have had no name in the first tree either
    · obtain ⟨spot, node, hg, hf, hn⟩ := nameless_of_collected wft' hroot' collected hp hname
      obtain ⟨id, mode, content, rfl⟩ : ∃ id mode content, node = .file id mode content := by
        cases node with
        | file id mode content => exact ⟨id, mode, content, rfl⟩
        | dir | link => cases hf
      obtain ⟨id', mode', hg'⟩ := (same spot content).mpr ⟨id, mode, hg⟩
      exact (text_of_packs wft packs hg' rfl hn).elim
  · exact .inr .late
  · refine .inl (congrArg _ ?_)
    rw [(feed_of_digested wf' hroot' (done digest' rfl)).1, known,
      (contentsOf_eq_iff wft wft').mpr same]

/-- The archive of a tree is had again wherever the same files can be read. -/
theorem archived_again {output output' : Path} {entries : List Zip.Entry} {summary : Summary}
    {trace : List (Request × Machine)} {m₁ : Machine} (same : SameLayer (.dir es) (.dir es'))
    (made : Archived root output m entries summary trace m₁) :
    (write root' output' deadline').Ends (answer o') m' fun r trace' m₂ =>
      (∃ summary', r = .ok summary' ∧ Archived root' output' m' entries summary' trace' m₂) ∨
        Hindered o' root' output' (.dir es') trace' r := by
  have wft : (Node.dir es).WellFormed :=
    wf.get? (p := place) (Disk.lookup_sound (Disk.resolve_ok.mp hroot))
  have wft' : (Node.dir es').WellFormed :=
    wf'.get? (p := place') (Disk.lookup_sound (Disk.resolve_ok.mp hroot'))
  obtain ⟨packs, some⟩ := packs_of_archived wf hroot made
  have fit : ¬ Unfit (.dir es') := fun unfit =>
    not_unfit wft packs some (unfit.of_sameFiles same.symm.sameFiles)
  refine (write_ends.and (write_fails wf' hroot')).mono ?_
  rintro ((cause | _) | summary') trace' m₂ ⟨done, failed⟩
  · obtain ⟨text, rfl, quotes | deep | collected | ⟨files, collected, h⟩⟩ := failed cause rfl
    · exact .inr (.refused text quotes)
    · exact .inr (.tooDeep text deep)
    · exact (fit (unfit_of_collected wft' hroot' collected (.inl rfl))).elim
    · exact (fit (unfit_of_collected wft' hroot' collected (.inr ⟨text, h⟩))).elim
  · exact .inr .late
  · obtain ⟨entries', archived⟩ := done summary' rfl
    obtain ⟨packs', -⟩ := packs_of_archived wf' hroot' archived
    obtain rfl := same.entries_eq wft wft' packs packs'
    exact .inl ⟨summary', rfl, archived⟩

/-- Trees with the same files have the same digest, and trees with the same files and permission bits
have archives with the same entries, unless something keeps one of them from being read or written. -/
theorem location_does_not_show (o o' : Outside) (deadline deadline' : Option Nat)
    (output output' : Path) :
    (SameFiles (.dir es) (.dir es') →
      (treeDigest root deadline).Ends (answer o) m fun r trace _ =>
        (treeDigest root' deadline').Ends (answer o') m' fun r' trace' _ =>
          (∀ digest, r = .ok digest → r' = .ok digest ∨ Stalled o' root' (.dir es') trace' r') ∧
          (∀ digest, r' = .ok digest → r = .ok digest ∨ Stalled o root (.dir es) trace r)) ∧
    (SameLayer (.dir es) (.dir es') →
      (write root output deadline).Ends (answer o) m fun r trace m₁ =>
        (write root' output' deadline').Ends (answer o') m' fun r' trace' m₂ =>
          (∀ summary, r = .ok summary → ∃ entries,
            Archived root output m entries summary trace m₁ ∧
            ((∃ summary', r' = .ok summary' ∧
                Archived root' output' m' entries summary' trace' m₂) ∨
              Hindered o' root' output' (.dir es') trace' r')) ∧
          (∀ summary', r' = .ok summary' → ∃ entries,
            Archived root' output' m' entries summary' trace' m₂ ∧
            ((∃ summary, r = .ok summary ∧ Archived root output m entries summary trace m₁) ∨
              Hindered o root output (.dir es) trace r))) := by
  constructor
  · intro same
    have digested := (treeDigest_ends (o := o) (m := m) root deadline).2
    have digested' := (treeDigest_ends (o := o') (m := m') root' deadline').2
    exact ⟨fun digest h => digested_again wf wf' hroot hroot' same (digested digest h),
      fun digest h => digested_again wf' wf hroot' hroot same.symm (digested' digest h)⟩
  · intro same
    constructor
    · intro summary h
      obtain ⟨entries, archived⟩ := write_ends summary h
      exact ⟨entries, archived, archived_again wf wf' hroot hroot' same archived⟩
    · intro summary' h
      obtain ⟨entries, archived⟩ := write_ends summary' h
      exact ⟨entries, archived, archived_again wf' wf hroot' hroot same.symm archived⟩

end Elsewhere

/-- Without a deadline an archive is made where the files are found and delivered. -/
theorem write_succeeds {output : Path} {files : List Path} {m₁ : Machine}
    (prepared : (prepare root output none).run (answer o) m = (.ok files, m₁))
    (delivered : ((deliver root output files none).run (answer o) m₁).1.toOption.isSome) :
    (write root output none).Ends (answer o) m fun r _ _ => ∃ summary, r = .ok summary := by
  have prepared : (prepare root output none).Ends (answer o) m
      fun r _ s => r = .ok files ∧ s = m₁ := by
    unfold Ends
    rw [prepared]
    exact ⟨rfl, rfl⟩
  have delivered : (deliver root output files none).Ends (answer o) m₁
      fun r _ _ => r.toOption.isSome := delivered
  refine Work.ends_bind.mpr (prepared.mono ?_)
  rintro _ _ _ ⟨rfl, rfl⟩
  refine Work.ends_bind.mpr (delivered.mono ?_)
  rintro (stop | measured) _ _ h
  · cases h
  · exact ⟨_, rfl⟩

/-- The small tree again, made in another order, with other file numbers, without the bit that no archive
keeps, and with an empty directory and a link beside. -/
def smallMoved : Entries := [
  (Bytes.ofString "lib", .link (Bytes.ofString "bin")), (Bytes.ofString "empty", .dir []),
  (Bytes.ofString "bin", .dir [(Bytes.ofString "run", .file 7 0o755 .empty)])]

def smallNear : Machine := .small [("tree", .dir smallTree)]

def smallFar : Machine := .small [("far", .dir [(Bytes.ofString "down", .dir smallMoved)])]

set_option maxRecDepth 100000 in
/-- Both trees are digested and archived alike. -/
theorem small_move_does_not_show :
    smallNear.disk.root.WellFormed ∧ smallFar.disk.root.WellFormed ∧
    smallNear.disk.resolve [] true (.ofString "/tree") =
      .ok ([Bytes.ofString "tree"], .dir smallTree) ∧
    smallFar.disk.resolve [] true (.ofString "/far/./down/") =
      .ok ([Bytes.ofString "far", Bytes.ofString "down"], .dir smallMoved) ∧
    SameLayer (.dir smallTree) (.dir smallMoved) ∧
    ((treeDigest (.ofString "/tree") none).Ends (answer (.small [])) smallNear fun r _ _ =>
      (treeDigest (.ofString "/far/./down/") none).Ends (answer (.small [])) smallFar fun r' _ _ =>
        ∃ digest, r = .ok digest ∧ r' = .ok digest) ∧
    ((write (.ofString "/tree") (.ofString "/out.zip") none).Ends (answer (.small [])) smallNear
      fun r trace m => (write (.ofString "/far/./down/") (.ofString "/out.zip") none).Ends
        (answer (.small [])) smallFar fun r' trace' m' => ∃ entries summary summary',
          r = .ok summary ∧ r' = .ok summary' ∧
          Archived (.ofString "/tree") (.ofString "/out.zip") smallNear entries summary trace m ∧
          Archived (.ofString "/far/./down/") (.ofString "/out.zip") smallFar entries summary'
            trace' m') := by
  have wf : smallNear.disk.root.WellFormed := by decide +kernel
  have wf' : smallFar.disk.root.WellFormed := by decide +kernel
  have found : smallNear.disk.resolve [] true (.ofString "/tree") =
      .ok ([Bytes.ofString "tree"], .dir smallTree) := by decide +kernel
  have found' : smallFar.disk.resolve [] true (.ofString "/far/./down/") =
      .ok ([Bytes.ofString "far", Bytes.ofString "down"], .dir smallMoved) := by decide +kernel
  have same : SameLayer (.dir smallTree) (.dir smallMoved) := by
    apply (layerOf_eq_iff (by decide +kernel) (by decide +kernel)).mp
    cbv
  have digested : (treeDigest (.ofString "/tree") none).Ends (answer (.small [])) smallNear
      fun r _ _ => r.toOption.isSome := by
    unfold Ends
    decide +kernel
  have archived : (write (.ofString "/tree") (.ofString "/out.zip") none).Ends (answer (.small []))
      smallNear fun r _ _ => r.toOption.isSome := by
    unfold Ends
    decide +kernel
  have walked : (Files.collect (.ofString "/far/./down/")).run (answer (.small [])) smallFar =
      (.ok [.ofString "/far/./down/bin/run"], { smallFar with ticks := 2 }) := by cbv
  have digested' := treeDigest_succeeds "bin/run\x00".toUTF8 walked (by cbv)
  have prepared : (prepare (.ofString "/far/./down/") (.ofString "/out.zip") none).run
      (answer (.small [])) smallFar = (.ok [.ofString "/far/./down/bin/run"], { smallFar with
        ticks := 5, logs := [(.info, "Archiving /far/./down/ into /out.zip")] }) := by cbv
  have archived' := write_succeeds prepared (by decide +kernel)
  obtain ⟨digests, archives⟩ := location_does_not_show wf wf' found found' (.small []) (.small [])
    none none (.ofString "/out.zip") (.ofString "/out.zip")
  refine ⟨wf, wf', found, found', same, (digested.and (digests same.sameFiles)).mono ?_,
    (archived.and (archives same)).mono ?_⟩
  · rintro (_ | digest) _ _ ⟨hr, agree⟩
    · cases hr
    refine (digested'.and agree).mono ?_
    rintro _ _ _ ⟨rfl, agree, -⟩
    obtain he | h := agree digest rfl
    · exact ⟨digest, rfl, he⟩
    · cases h
  · rintro (_ | summary) _ _ ⟨hr, agree⟩
    · cases hr
    refine (archived'.and agree).mono ?_
    rintro _ _ _ ⟨⟨summary', rfl⟩, agree, -⟩
    obtain ⟨entries, near, ⟨_, hs, far⟩ | h⟩ := agree summary rfl
    · obtain rfl := Except.ok.inj hs
      exact ⟨entries, summary, summary', rfl, rfl, near, far⟩
    · cases h

end Archive

end LayerPack
