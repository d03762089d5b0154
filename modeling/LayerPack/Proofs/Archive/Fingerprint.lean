import Mathlib
import LayerPack.Proofs.Archive.Encoding
import LayerPack.Proofs.Host.Directories

/-! How far the digest of a tree tells the tree. The bytes that are hashed have a zero byte after every
name and nothing after a content. What has been hashed can therefore be read in more than one way, but
only if a file of one tree goes on over the names and contents of files that come after it in the
other. -/
namespace LayerPack

open Program Machine

namespace Path

variable {p : Path} {place : List Name}

theorem subset_child (p : Path) {name : Name} (hn : ProperName name) :
    p.bytes ⊆ (p.child name).bytes ∧ name ⊆ (p.child name).bytes := by
  rw [child_bytes p hn]
  split <;> simp +contextual [List.subset_def]

/-- Nothing that is written of a path or of a name is lost where names are put behind the path. -/
theorem subset_descend (p : Path) (h : ∀ name ∈ place, ProperName name) :
    p.bytes ⊆ (p.descend place).bytes ∧ ∀ name ∈ place, name ⊆ (p.descend place).bytes := by
  induction place generalizing p with
  | nil => exact ⟨List.Subset.refl _, by simp⟩
  | cons first rest ih =>
    obtain ⟨before, names⟩ := ih (p.child first) fun n hn => h n (List.mem_cons_of_mem _ hn)
    obtain ⟨hp, hfirst⟩ := subset_child p (h first List.mem_cons_self)
    refine ⟨List.Subset.trans hp before, fun name hn => ?_⟩
    rcases List.mem_cons.mp hn with rfl | hn
    · exact List.Subset.trans hfirst before
    · exact names name hn

end Path

theorem mem_joinSlash {b : UInt8} {parts : List Bytes} (h : b ∈ joinSlash parts) :
    b = slash ∨ ∃ part ∈ parts, b ∈ part := by
  fun_induction joinSlash parts with
  | case1 => cases h
  | case2 part => exact .inr ⟨part, List.mem_cons_self, h⟩
  | case3 part parts hne ih =>
    rcases List.mem_append.mp h with h | h
    · exact .inr ⟨part, List.mem_cons_self, h⟩
    rcases List.mem_cons.mp h with rfl | h
    · exact .inl rfl
    · obtain hs | ⟨other, ho, hb⟩ := ih h
      · exact .inl hs
      · exact .inr ⟨other, List.mem_cons_of_mem _ ho, hb⟩

namespace Archive

variable {o o' : Outside} {m m' : Machine} {root root' : Path} {tree tree' : Node}
  {place : List Name} {content : ByteArray} {entries : List Zip.Entry}
  {files files' : List (List Name × ByteArray)}

/-- The files of a tree with their contents, in the order of their places. -/
def contentsOf (tree : Node) : List (List Name × ByteArray) := tree.told fun _ content => content

/-- What is hashed of files. -/
def feed : List (List Name × ByteArray) → Bytes
  | [] => []
  | (place, content) :: rest => joinSlash place ++ 0 :: (content.data.toList ++ feed rest)

/-- A tree has a file with a content. -/
def Stores (tree : Node) (place : List Name) (content : ByteArray) : Prop :=
  ∃ id mode, tree.get? place = some (.file id mode content)

theorem mem_contentsOf (wf : tree.WellFormed) :
    (place, content) ∈ contentsOf tree ↔ Stores tree place content := by
  rw [contentsOf, Node.mem_told wf]
  constructor
  · rintro ⟨id, mode, _, hg, rfl⟩
    exact ⟨id, mode, hg⟩
  · rintro ⟨id, mode, hg⟩
    exact ⟨id, mode, content, hg, rfl⟩

/-- Two trees have files at the same places, with the same contents. -/
def SameFiles (tree tree' : Node) : Prop :=
  ∀ place content, Stores tree place content ↔ Stores tree' place content

/-- Trees with the same files have the same list of them. -/
theorem contentsOf_eq_iff (wf : tree.WellFormed) (wf' : tree'.WellFormed) :
    contentsOf tree = contentsOf tree' ↔ SameFiles tree tree' := by
  rw [contentsOf, contentsOf, Node.told_eq_iff wf wf']
  refine forall₂_congr fun place content => ?_
  rw [← mem_contentsOf wf, ← mem_contentsOf wf', contentsOf, contentsOf]

theorem feed_append (files files' : List (List Name × ByteArray)) :
    feed (files ++ files') = feed files ++ feed files' := by
  induction files with
  | nil => rfl
  | cons file rest ih => simp [feed, ih]

/-- The records of the entries of a tree are what is hashed of its files. -/
theorem records_eq_feed {files : List (List Name × Nat × ByteArray)}
    (h : entries.map facts = files.map factsOf) :
    (records entries).data.toList = feed (files.map fun file => (file.1, file.2.2)) := by
  induction entries generalizing files with
  | nil =>
    obtain rfl := List.map_eq_nil_iff.mp h.symm
    rfl
  | cons entry rest ih =>
    cases files with
    | nil => cases h
    | cons file more =>
      obtain ⟨head, tail⟩ := List.cons.inj h
      simp only [facts, factsOf, Prod.mk.injEq] at head
      obtain ⟨hname, -, hcontent⟩ := head
      rw [List.map_cons, feed, ← ih tail, ← hname, ← hcontent]
      simp [records, record, Bytes.ofString]

/-- Files that come with the same beginning, up to a file whose content goes on in the second list, over
all that is hashed of the files behind it in the first until the two meet again. -/
def RunsOver (files files' : List (List Name × ByteArray)) : Prop :=
  ∃ front place content content' back back' more, more ≠ [] ∧
    files = front ++ (place, content) :: back ∧ files' = front ++ (place, content') :: back' ∧
    content'.data.toList = content.data.toList ++ more ∧ feed back = more ++ feed back'

theorem RunsOver.feed_eq (h : RunsOver files files') : feed files = feed files' := by
  obtain ⟨front, place, content, content', back, back', more, -, rfl, rfl, hc, hb⟩ := h
  simp [feed_append, feed, hc, hb]

theorem RunsOver.cons (file : List Name × ByteArray) (h : RunsOver files files') :
    RunsOver (file :: files) (file :: files') := by
  obtain ⟨front, place, content, content', back, back', more, hm, rfl, rfl, hc, hb⟩ := h
  exact ⟨file :: front, place, content, content', back, back', more, hm, rfl, rfl, hc, hb⟩

/-- A place whose name can be read back up to the zero byte. -/
structure Legible (place : List Name) : Prop where
  some : place ≠ []
  proper : ∀ name ∈ place, ProperName name
  noNul : 0 ∉ joinSlash place

theorem Legible.injective {place place' : List Name} (h : Legible place) (h' : Legible place')
    (eq : joinSlash place = joinSlash place') : place = place' := by
  rw [← splitSlash_joinSlash h.some fun n hn => (h.proper n hn).noSlash, eq,
    splitSlash_joinSlash h'.some fun n hn => (h'.proper n hn).noSlash]

/-- Files of which the same is hashed although they may differ. -/
def Confusable (files files' : List (List Name × ByteArray)) : Prop :=
  files = files' ∨ RunsOver files files' ∨ RunsOver files' files

theorem Confusable.symm (h : Confusable files files') : Confusable files' files := by
  rcases h with rfl | runs | runs
  · exact .inl rfl
  · exact .inr (.inr runs)
  · exact .inr (.inl runs)

theorem Confusable.cons (file : List Name × ByteArray) (h : Confusable files files') :
    Confusable (file :: files) (file :: files') := by
  rcases h with rfl | runs | runs
  · exact .inl rfl
  · exact .inr (.inl (runs.cons file))
  · exact .inr (.inr (runs.cons file))

/-- Where one of two contents is a beginning of the other, the longer one is the same or runs over. -/
theorem confusable_of_continued {content' : ByteArray} {more : Bytes}
    (hc : content'.data.toList = content.data.toList ++ more) (hb : feed files = more ++ feed files')
    (ih : feed files = feed files' → Confusable files files') :
    Confusable ((place, content) :: files) ((place, content') :: files') := by
  rcases eq_or_ne more [] with rfl | hm
  · rw [List.append_nil] at hc
    obtain rfl : content' = content := ByteArray.ext (Array.toList_inj.mp hc)
    exact (ih hb).cons _
  · exact .inr (.inl ⟨[], place, content, content', files, files', more, hm, rfl, rfl, hc, hb⟩)

theorem eq_of_delimited {x x' z z' : Bytes} (h : 0 ∉ x) (h' : 0 ∉ x')
    (eq : x ++ 0 :: z = x' ++ 0 :: z') : x = x' ∧ z = z' := by
  induction x generalizing x' with
  | nil =>
    cases x' with
    | nil => exact ⟨rfl, (List.cons.inj eq).2⟩
    | cons => exact (h' ((List.cons.inj eq).1 ▸ List.mem_cons_self)).elim
  | cons b rest ih =>
    cases x' with
    | nil => exact (h ((List.cons.inj eq).1 ▸ List.mem_cons_self)).elim
    | cons =>
      obtain ⟨rfl, tail⟩ := List.cons.inj eq
      obtain ⟨rfl, rfl⟩ := ih (fun hm => h (List.mem_cons_of_mem _ hm))
        (fun hm => h' (List.mem_cons_of_mem _ hm)) tail
      exact ⟨rfl, rfl⟩

/-- The same bytes are hashed of different files only if one of them runs over others. -/
theorem feed_eq_iff (h : ∀ f ∈ files, Legible f.1) (h' : ∀ f ∈ files', Legible f.1) :
    feed files = feed files' ↔ Confusable files files' := by
  refine ⟨fun eq => ?_, ?_⟩
  · induction files generalizing files' with
    | nil =>
      cases files' with
      | nil => exact .inl rfl
      | cons => simp [feed] at eq
    | cons file rest ih =>
      cases files' with
      | nil => simp [feed] at eq
      | cons file' rest' =>
        obtain ⟨place, content⟩ := file
        obtain ⟨place', content'⟩ := file'
        have first : Legible place := h _ List.mem_cons_self
        have first' : Legible place' := h' _ List.mem_cons_self
        obtain ⟨hname, tail⟩ := eq_of_delimited first.noNul first'.noNul eq
        obtain rfl := first.injective first' hname
        have ih (heq : feed rest = feed rest') : Confusable rest rest' :=
          ih (fun f hf => h f (List.mem_cons_of_mem _ hf))
            (fun f hf => h' f (List.mem_cons_of_mem _ hf)) heq
        -- the contents are followed by equal bytes, so that one is a beginning of the other
        rcases List.append_eq_append_iff.mp tail with ⟨more, hc, hb⟩ | ⟨more, hc, hb⟩
        · exact confusable_of_continued hc hb ih
        · exact (confusable_of_continued hc hb fun heq => (ih heq.symm).symm).symm
  · rintro (rfl | runs | runs)
    · rfl
    · exact runs.feed_eq
    · exact runs.feed_eq.symm

/-- A path that leads somewhere has no zero byte. -/
theorem noNul_of_fileAt {d : Disk} {cwd : Place} {p : Path} {mode : Nat}
    (h : d.FileAt cwd p mode content) : 0 ∉ p.bytes := by
  obtain ⟨_, _, hr⟩ := h
  have check := Disk.checkPath_of_lookup (Disk.resolve_ok.mp hr)
  intro hn
  simp [Disk.checkPath, hn] at check

/-- A digest of a directory is that of entries of all its files. -/
theorem packs_of_digested {d : Disk} {cwd place : Place} {es : Entries} {digest : String}
    (wf : d.root.WellFormed) (hroot : d.resolve cwd true root = .ok (place, .dir es))
    (h : Digested d cwd root digest) : ∃ entries, Packs (.dir es) entries ∧
      digest = Sha256.hexDigest (records entries) ∧
      ∀ file ∈ (Node.dir es).regularFiles, ∃ entry, EntryOf root d cwd (root.descend file.1) entry := by
  obtain ⟨paths, entries, ⟨_, _, hroot', hdir, -⟩, read, rfl⟩ := h
  cases hroot.symm.trans hroot'
  have walk := hdir rfl
  have facts := facts_of_read wf hroot (.refl d) walk read
  obtain rfl := Node.filesBelow_ok walk
  have wft : (Node.dir es).WellFormed :=
    wf.get? (p := place) (Disk.lookup_sound (Disk.resolve_ok.mp hroot))
  have each := ((List.forall₂_and_left _ _).mp (read.imp fun p entry he =>
    (⟨⟨entry, he⟩, he⟩ : (∃ entry, EntryOf root d cwd p entry) ∧ _))).1
  exact ⟨entries, packs_of_facts wft facts, rfl, fun file hf => each _ (List.mem_map_of_mem hf)⟩

/-- The bytes that a digest is taken over are those of the files, whose names can all be read back. -/
theorem feed_of_digested {d : Disk} {cwd place : Place} {es : Entries} {digest : String}
    (wf : d.root.WellFormed) (hroot : d.resolve cwd true root = .ok (place, .dir es))
    (h : Digested d cwd root digest) :
    digest = Sha256.hexDigest (feed (contentsOf (.dir es))).toByteArray ∧
      ∀ f ∈ contentsOf (.dir es), Legible f.1 := by
  have wft : (Node.dir es).WellFormed :=
    wf.get? (p := place) (Disk.lookup_sound (Disk.resolve_ok.mp hroot))
  obtain ⟨entries, packs, rfl, each⟩ := packs_of_digested wf hroot h
  refine ⟨?_, fun f hf => ?_⟩
  · rw [contentsOf, Node.told, ← records_eq_feed packs.files]
    congr 1
    exact ByteArray.ext (by simp)
  · obtain ⟨⟨place, mode, content⟩, hm, rfl⟩ := List.mem_map.mp hf
    obtain ⟨id, hg⟩ := (Node.mem_regularFiles wft).mp hm
    have proper := wft.properName hg
    obtain ⟨entry, hname, mode', -, hfile⟩ := each _ hm
    refine ⟨(entryName_below proper hname).1, proper, fun hn => ?_⟩
    rcases mem_joinSlash hn with h | ⟨name, hname, h⟩
    · cases h
    · exact noNul_of_fileAt hfile ((Path.subset_descend root proper).2 name hname h)

/-- A file that runs over others has another size than the file at its place. -/
theorem RunsOver.sizes (h : RunsOver files files') : ∃ place content content',
    (place, content) ∈ files ∧ (place, content') ∈ files' ∧ content.size < content'.size := by
  obtain ⟨front, place, content, content', back, back', more, hm, rfl, rfl, hc, -⟩ := h
  refine ⟨place, content, content', by simp, by simp, ?_⟩
  have := congrArg List.length hc
  rw [List.length_append, Array.length_toList, Array.length_toList] at this
  have := List.length_pos_iff.mpr hm
  change content.data.size < content'.data.size
  omega

/-- The same bytes are hashed of two directories exactly if they have the same files, or if a file of
one runs over files of the other. Sizes that agree rule the second out. -/
theorem treeDigest_identifies (o o' : Outside) (deadline deadline' : Option Nat)
    {place place' : Place} {es es' : Entries} (wf : m.disk.root.WellFormed) (wf' : m'.disk.root.WellFormed)
    (hroot : m.disk.resolve m.cwd true root = .ok (place, .dir es))
    (hroot' : m'.disk.resolve m'.cwd true root' = .ok (place', .dir es')) :
    (treeDigest root deadline).Ends (answer o) m fun r _ _ =>
      (treeDigest root' deadline').Ends (answer o') m' fun r' _ _ =>
        ∀ digest digest', r = .ok digest → r' = .ok digest' →
          digest = Sha256.hexDigest (feed (contentsOf (.dir es))).toByteArray ∧
          digest' = Sha256.hexDigest (feed (contentsOf (.dir es'))).toByteArray ∧
          (feed (contentsOf (.dir es)) = feed (contentsOf (.dir es')) ↔
            SameFiles (.dir es) (.dir es') ∨
              RunsOver (contentsOf (.dir es)) (contentsOf (.dir es')) ∨
              RunsOver (contentsOf (.dir es')) (contentsOf (.dir es))) ∧
          ((∀ place content content', Stores (.dir es) place content →
              Stores (.dir es') place content' → content.size = content'.size) →
            feed (contentsOf (.dir es)) = feed (contentsOf (.dir es')) →
              SameFiles (.dir es) (.dir es')) := by
  refine (treeDigest_ends root deadline).mono fun r _ _ h => ?_
  refine (treeDigest_ends root' deadline').mono fun r' _ _ h' => ?_
  intro digest digest' hr hr'
  have wft : (Node.dir es).WellFormed :=
    wf.get? (p := place) (Disk.lookup_sound (Disk.resolve_ok.mp hroot))
  have wft' : (Node.dir es').WellFormed :=
    wf'.get? (p := place') (Disk.lookup_sound (Disk.resolve_ok.mp hroot'))
  obtain ⟨hdigest, legible⟩ := feed_of_digested wf hroot (h.2 digest hr)
  obtain ⟨hdigest', legible'⟩ := feed_of_digested wf' hroot' (h'.2 digest' hr')
  have same := feed_eq_iff legible legible'
  rw [Confusable, contentsOf_eq_iff wft wft'] at same
  refine ⟨hdigest, hdigest', same, fun sizes eq => ?_⟩
  rcases same.mp eq with same | runs | runs
  · exact same
  · obtain ⟨spot, content, content', hm, hm', less⟩ := runs.sizes
    exact (Nat.ne_of_lt less (sizes spot _ _ ((mem_contentsOf wft).mp hm) ((mem_contentsOf wft').mp hm'))).elim
  · obtain ⟨spot, content, content', hm, hm', less⟩ := runs.sizes
    exact (Nat.ne_of_gt less (sizes spot _ _ ((mem_contentsOf wft).mp hm') ((mem_contentsOf wft').mp hm))).elim

def smallEmpty : Entries := [
  (Bytes.ofString "a", .file 0 0o644 .empty), (Bytes.ofString "bc", .file 1 0o644 .empty)]

def smallLetter : Entries := [
  (Bytes.ofString "a", .file 2 0o644 "b".toUTF8), (Bytes.ofString "c", .file 3 0o644 .empty)]

def smallTwins : Machine := .small [("x", .dir smallEmpty), ("y", .dir smallLetter)]

/-- Without a deadline a digest is made where the walk and the reading succeed. -/
theorem treeDigest_succeeds {paths : List Path} {m₁ : Machine} (bytes : ByteArray)
    (walked : (Files.collect root).run (answer o) m = (.ok paths, m₁))
    (read : ((recordsOf root paths none).run (answer o) m₁).1 = .ok bytes) :
    (treeDigest root none).Ends (answer o) m fun r _ _ => r = .ok (Sha256.hexDigest bytes) := by
  change (Program.run (answer o) (((Files.collect root).bind _).bind _) m).1 = _
  rw [run_bind, run_bind, walked]
  change (Program.run (answer o) ((recordsOf root paths none).bind _) m₁).1 = _
  rw [run_bind, read]
  rfl

set_option maxRecDepth 100000 in
/-- Two empty files have the digest of a file with a letter and an empty file: the letter is the first
one of a name. -/
theorem small_twins_confused :
    smallTwins.disk.root.WellFormed ∧
    smallTwins.disk.resolve [] true (.ofString "/x") =
      .ok ([Bytes.ofString "x"], .dir smallEmpty) ∧
    smallTwins.disk.resolve [] true (.ofString "/y") =
      .ok ([Bytes.ofString "y"], .dir smallLetter) ∧
    ¬ SameFiles (.dir smallEmpty) (.dir smallLetter) ∧
    (treeDigest (.ofString "/x") none).Ends (answer (.small [])) smallTwins fun r _ _ =>
      (treeDigest (.ofString "/y") none).Ends (answer (.small [])) smallTwins fun r' _ _ =>
        ∃ digest, r = .ok digest ∧ r' = .ok digest ∧
          feed (contentsOf (.dir smallEmpty)) = feed (contentsOf (.dir smallLetter)) ∧
          (RunsOver (contentsOf (.dir smallEmpty)) (contentsOf (.dir smallLetter)) ∨
            RunsOver (contentsOf (.dir smallLetter)) (contentsOf (.dir smallEmpty))) := by
  have wf : smallTwins.disk.root.WellFormed := by decide +kernel
  have found : smallTwins.disk.resolve [] true (.ofString "/x") =
      .ok ([Bytes.ofString "x"], .dir smallEmpty) := by decide +kernel
  have found' : smallTwins.disk.resolve [] true (.ofString "/y") =
      .ok ([Bytes.ofString "y"], .dir smallLetter) := by decide +kernel
  have differ : ¬ SameFiles (.dir smallEmpty) (.dir smallLetter) := by
    intro same
    obtain ⟨_, _, h⟩ := (same [Bytes.ofString "a"] .empty).mp ⟨0, 0o644, rfl⟩
    cases h
  have fed : feed (contentsOf (.dir smallEmpty)) = feed (contentsOf (.dir smallLetter)) := by cbv
  have walked : (Files.collect (.ofString "/x")).run (answer (.small [])) smallTwins =
      (.ok [.ofString "/x/a", .ofString "/x/bc"], { smallTwins with ticks := 2 }) := by cbv
  have walked' : (Files.collect (.ofString "/y")).run (answer (.small [])) smallTwins =
      (.ok [.ofString "/y/a", .ofString "/y/c"], { smallTwins with ticks := 2 }) := by cbv
  have made := treeDigest_succeeds "a\x00bc\x00".toUTF8 walked (by cbv)
  have made' := treeDigest_succeeds "a\x00bc\x00".toUTF8 walked' (by cbv)
  have identifies := treeDigest_identifies (.small []) (.small []) none none wf wf found found'
  refine ⟨wf, found, found', differ, (made.and identifies).mono ?_⟩
  rintro r _ _ ⟨hr, identifies⟩
  refine (made'.and identifies).mono ?_
  rintro r' _ _ ⟨hr', identifies⟩
  obtain ⟨-, -, same, -⟩ := identifies _ _ hr hr'
  exact ⟨_, hr, hr', fed, (same.mp fed).resolve_left differ⟩

end Archive

end LayerPack
