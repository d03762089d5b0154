import LayerPack.Proofs.Disk.Lead
import LayerPack.Proofs.Machine.Form
import LayerPack.Proofs.Workspace.Reset

/-! Which requests can take something away. Removals and moves name what they take; no other request
of a program removes or replaces a directory, a link, or a file. What they take lies at the seats of the
paths that they name, so with no link in between it lies where these paths say. -/
namespace LayerPack

variable {o : Outside} {m : Machine} {q : Request} {p : Path}

/-- The request removes or moves what the path names, or puts something in its place. -/
def Request.Takes (p : Path) : Request → Prop
  | .unlink p' | .removeTree p' => p = p'
  | .rename src dst => p = src ∨ p = dst
  | _ => False

namespace Disk

variable {d d' : Disk} {cwd place : Place} {src dst : Path}

/-- What is moved leaves one seat and takes another. -/
theorem rename_look (h : d.rename cwd src dst = .ok d')
    (hs : ∀ seat, d.seat cwd src = some seat → ¬ seat <+: place)
    (ht : ∀ seat, d.seat cwd dst = some seat → ¬ seat <+: place) : d'.look place = d.look place := by
  obtain ⟨_, _, _, _, _, _, hsrc, hdst, hmove⟩ := rename_ok h
  have left := hs _ (seat_of_lookupParent hsrc)
  have taken := ht _ (seat_of_lookupParent hdst)
  obtain ⟨node, -, -, ⟨rfl, -⟩ | ⟨rfl, -, -⟩⟩ := move_ok hmove
  · rfl
  · exact (look_put taken).trans (look_erase left)

variable {names : List Name} {name : Name} {rest : List Name} {node : Node}

/-- A directory with something in it is not removed as a file. -/
theorem unlink_above (hs : ∀ seat, d.seat cwd p = some seat → seat = names)
    (there : d.get? (names ++ name :: rest) = some node) : d.unlink cwd p ≠ .ok d' := by
  intro h
  obtain ⟨parent, last, found, hp, hg, hd, -⟩ := unlink_ok h
  obtain rfl := hs _ (seat_of_lookupParent hp)
  obtain ⟨es, he⟩ := Node.dir_of_get?_append there
  cases hg.symm.trans he
  cases hd

/-- Nothing takes the place of a directory with something in it. -/
theorem move_onto {dir : Place} {slashed : Bool} {es : Entries}
    (hg : d.get? (dir ++ [name]) = some (.dir es)) (full : es ≠ [])
    (h : d.move place dir name slashed = .ok d') : d' = d := by
  have wrong (node : Node) : ∃ e, replaceError node (some (.dir es)) = some e := by
    unfold replaceError
    dsimp only
    split
    · exact ⟨_, rfl⟩
    · exact ⟨_, if_pos (List.length_pos_iff.mpr full)⟩
  unfold move at h
  rw [hg] at h
  split at h
  · cases h
  next node _ =>
    obtain ⟨e, he⟩ := wrong node
    simp only [he] at h
    split at h
    · cases h
    split at h
    · cases h
    split at h
    · exact (Except.ok.inj h).symm
    · cases h

theorem rename_above (hs : ∀ seat, d.seat cwd dst = some seat → seat = names)
    (there : d.get? (names ++ name :: rest) = some node) (h : d.rename cwd src dst = .ok d') :
    d' = d := by
  obtain ⟨_, _, _, parent, last, slashed, -, hdst, hmove⟩ := rename_ok h
  obtain rfl := hs _ (seat_of_lookupParent hdst)
  obtain ⟨es, he⟩ := Node.dir_of_get?_append there
  refine move_onto he ?_ hmove
  rintro rfl
  change d.root.get? _ = _ at there
  rw [Node.get?_append, he] at there
  simp [Node.get?, Entries.find?] at there

end Disk

namespace Machine

theorem Same.preserves {m' : Machine} (h : Same m m') : m.disk.Preserves m'.disk :=
  h.disk ▸ .refl _

/-- A request that takes nothing away leaves all that is there. -/
theorem preserves_step (o : Outside) (m : Machine) (hq : q.isForeign = false)
    (nothing : ∀ p, ¬ q.Takes p) : m.disk.Preserves (answer o q m).2.disk := by
  cases q with
  | stat | list | snapshot | openRead | read | sync | workingDirectory =>
    exact ((same_step m _).trans (same_reading _ _ _)).preserves
  | «variable» | clock | freshName | log | unlock => exact .refl _
  | lock h => exact (same_lock o m h).preserves
  | print stream text => exact (same_print o m stream text).preserves
  | mkdir p =>
    rcases changed_mkdir o m p with ⟨-, hop, -⟩ | ⟨-, same⟩
    · exact (Disk.mkdir_grows hop).preserves
    · exact same.preserves
  | openWrite truncate p =>
    rcases opened_openWrite o m truncate p with ⟨handle, -, hop, -⟩ | ⟨-, same⟩
    · exact Disk.openWrite_preserves hop
    · exact same.preserves
  | append handle bytes =>
    rcases changed_append o m handle bytes with ⟨-, hop, -⟩ | ⟨-, same⟩
    · exact Except.ok.inj hop ▸ Disk.append_preserves handle bytes
    · exact same.preserves
  | unlink p | removeTree p => exact (nothing p rfl).elim
  | rename src dst => exact (nothing src (.inl rfl)).elim
  | run | collaborate => cases hq

/-- What is removed or moved lies where the paths say that name it, if no link redirects them. -/
theorem look_step {place : Place} (o : Outside) (m : Machine) (takes : ∃ p, q.Takes p)
    (literal : ∀ p, q.Takes p → m.Literal p) (aside : ∀ p, q.Takes p → ¬ p.names <+: place)
    (ends : ∀ p, q = .removeTree p →
      ∃ parts name, Disk.splitLast p.bytes = (parts, .name name false)) :
    (answer o q m).2.disk.look place = m.disk.look place := by
  have seats (p : Path) (hp : q.Takes p) (seat : Place) (hs : m.disk.seat m.cwd p = some seat) :
      ¬ seat <+: place := literal p hp seat hs ▸ aside p hp
  obtain ⟨p, hp⟩ := takes
  cases q with
  | unlink p' =>
    rcases changed_unlink o m p' with ⟨-, hop, -⟩ | ⟨-, same⟩
    · exact Disk.unlink_clearedAt hop place (seats p' rfl)
    · rw [same.disk]
  | removeTree p' =>
    obtain ⟨parts, name, hs⟩ := ends p' rfl
    obtain ⟨h | h, -⟩ := removeTree_cases o m p'
    · rw [h]
      exact Disk.removeTree_clearedAt hs place (seats p' rfl)
    · rw [h]
  | rename src dst =>
    rcases changed_rename o m src dst with ⟨-, hop, -⟩ | ⟨-, same⟩
    · exact Disk.rename_look hop (seats src (.inl rfl)) (seats dst (.inr rfl))
    · rw [same.disk]
  | _ => exact hp.elim

/-- Locks are only changed by locking and unlocking. -/
theorem held_step (o : Outside) (m : Machine) (hq : q.isForeign = false)
    (hl : ∀ file, q ≠ .lock file) (hu : ∀ file, q ≠ .unlock file) :
    (answer o q m).2.held = m.held := by
  have reading {α : Type} (fault : Option SystemError) (m : Machine)
      (answer : Except SystemError α) : (reading fault m answer).2.held = m.held := by
    cases fault <;> rfl
  have changing (fault : Option SystemError) (m : Machine) (answer : Except SystemError Disk) :
      (changing fault m answer).2.held = m.held := by
    cases fault <;> cases answer <;> rfl
  cases q with
  | stat | list | snapshot | openRead | read | sync | workingDirectory => exact reading _ (m.step _) _
  | «variable» | clock | freshName | log => rfl
  | mkdir | unlink | rename | append => exact changing _ (m.step _) _
  | lock file => exact (hl file rfl).elim
  | unlock file => exact (hu file rfl).elim
  | run | collaborate => cases hq
  | removeTree p =>
    have removing (fault : Option SystemError) (m : Machine) :
        (removingTree fault m p).2.held = m.held := by
      cases fault <;> rfl
    exact removing _ (m.step _)
  | openWrite truncate p =>
    have opening (fault : Option SystemError) (m : Machine)
        (answer : Except SystemError (Handle × Disk)) :
        (opening fault m answer).2.held = m.held := by
      cases fault <;> cases answer <;> rfl
    exact opening _ (m.step _) _
  | print stream text =>
    have said (m : Machine) : (m.say stream text).held = m.held := by cases stream <;> rfl
    unfold answer
    dsimp only
    split
    · rfl
    · exact said (m.step _)

/-- A file that nobody has locked is locked, or nothing changes. -/
theorem locked_answer (o : Outside) (m : Machine) (file : Handle) :
    ((answer o (.lock file) m).1 = .ok () ∧ file.id ∉ m.held ∧
        (answer o (.lock file) m).2.held = file.id :: m.held) ∨
      (∃ e, (answer o (.lock file) m).1 = .error e) ∧
        (answer o (.lock file) m).2.held = m.held := by
  have locking (fault : Option SystemError) (m : Machine) :
      ((locking fault m file).1 = .ok () ∧ file.id ∉ m.held ∧
          (locking fault m file).2.held = file.id :: m.held) ∨
        (∃ e, (locking fault m file).1 = .error e) ∧ (locking fault m file).2.held = m.held := by
    unfold Machine.locking
    cases fault with
    | some e => exact .inr ⟨⟨e, rfl⟩, rfl⟩
    | none =>
      by_cases h : file.id ∈ m.held
      · exact .inr ⟨⟨.wouldBlock, by simp [h]⟩, by simp [h]⟩
      · exact .inl ⟨by simp [h], h, by simp [h]⟩
  exact locking _ (m.step _)

end Machine

end LayerPack
