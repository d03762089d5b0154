import LayerPack.Proofs.Disk.Seat
import LayerPack.Proofs.Machine.Answers

/-! What the making of directories leaves. Nothing that was there has changed; what is new are empty
directories at the path that was asked for and at paths above it, each where its path leads. -/
namespace LayerPack

open Program Machine

theorem Path.Above.spells {p up : Path} {names : List Name} (h : Path.Above up p)
    (hp : p.Spells names) : ∃ above, above <+: names ∧ up.Spells above := by
  induction h generalizing names with
  | refl p => exact ⟨names, List.prefix_rfl, hp⟩
  | up hparent _ ih =>
    obtain ⟨front, name, rfl, hq⟩ := hp.parent hparent
    obtain ⟨above, hpre, hup⟩ := ih hq
    exact ⟨above, hpre.trans (List.prefix_append _ _), hup⟩

namespace Disk

variable {d d' d'' : Disk} {cwd place : Place} {p up : Path} {names : List Name}

theorem Grows.seat (h : d.Grows d') (hs : d.seat cwd p = some place) : d'.seat cwd p = some place :=
  seat_keeps h.keepsWays hs

theorem seat_absolute (hp : p.isAbsolute) (cwd' : Place) : d.seat cwd p = d.seat cwd' p := by
  unfold seat lookupParent
  rw [startOf_absolute hp, startOf_absolute hp]

/-- The directories of a path have been made as far as they were missing. -/
structure MadeWay (up : Path) (d d' : Disk) : Prop where
  grows : d.Grows d'
  added : ∀ place, d.get? place = none → d'.get? place ≠ none →
    d'.look place = some (.dir []) ∧ ∃ p, Path.Above p up ∧ d'.seat [] p = some place

theorem MadeWay.refl (up : Path) (d : Disk) : d.MadeWay up d :=
  ⟨.refl d, fun _ h h' => (h' h).elim⟩

theorem MadeWay.trans (h : d.MadeWay up d') (h' : d'.MadeWay up d'') : d.MadeWay up d'' := by
  refine ⟨h.grows.trans h'.grows, fun place hn there => ?_⟩
  by_cases hp : d'.get? place = none
  · exact h'.added place hp there
  · obtain ⟨hlook, p, above, hs⟩ := h.added place hn hp
    exact ⟨(h'.grows place hp).trans hlook, p, above, h'.grows.seat hs⟩

/-- What is new when a directory has been made is this directory, and its path leads to it. -/
theorem added_by_mkdir (h : d.mkdir cwd p = .ok d') (hn : d.get? place = none)
    (there : d'.get? place ≠ none) :
    d'.look place = some (.dir []) ∧ d'.seat cwd p = some place := by
  rcases look_mkdir h place with hsame | ⟨-, hmade⟩
  · exact (there (Node.look_eq_none.mp (hsame.trans (Node.look_eq_none.mpr hn)))).elim
  refine ⟨hmade, ?_⟩
  obtain ⟨parent, name, slashed, hparent, hg, hd⟩ := mkdir_ok h
  rw [(mkdir_grows h).seat (seat_of_lookupParent hparent)]
  -- Away from the seat nothing has changed.
  refine congrArg some (Classical.byContradiction fun hne => there ?_)
  by_cases hpre : parent ++ [name] <+: place
  · obtain ⟨rest, rfl⟩ := hpre
    obtain ⟨es, he⟩ := dir_of_lookupParent hparent
    cases rest with
    | nil => simp at hne
    | cons n rest =>
      rw [hd]
      exact get?_put_below he _
  · refine Node.look_eq_none.mp (Eq.trans ?_ (Node.look_eq_none.mpr hn))
    rw [hd]
    exact look_put hpre

theorem mkdir_madeWay (above : Path.Above p up) (hp : p.isAbsolute)
    (h : d.mkdir cwd p = .ok d') : d.MadeWay up d' := by
  refine ⟨mkdir_grows h, fun place hn there => ?_⟩
  obtain ⟨made, seated⟩ := added_by_mkdir h hn there
  exact ⟨made, p, above, (seat_absolute hp cwd).trans seated⟩

theorem MadeWay.noNewLink (h : d.MadeWay up d') : d.NoNewLink d' := by
  intro place target hq
  by_cases hn : d.get? place = none
  · have hlook := (h.added place hn (by simp [hq])).1
    rw [show d'.look place = some (.link target) from Node.look_eq_link.mpr hq] at hlook
    cases hlook
  · exact Node.look_eq_link.mp ((h.grows place hn).symm.trans (Node.look_eq_link.mpr hq))

/-- If no link stands above the path, the new directories have the names of the path. -/
theorem MadeWay.prefix (h : d.MadeWay up d') (hup : up.Spells names)
    (hl : d.root.NoLinkAbove names) (hn : d.get? place = none) (there : d'.get? place ≠ none) :
    place <+: names := by
  obtain ⟨-, p, above, hs⟩ := h.added place hn there
  obtain ⟨front, hpre, hp⟩ := above.spells hup
  have free : d'.root.NoLinkAbove front := fun q target hq hne =>
    h.noNewLink.noLinkAbove hl q target (hq.trans hpre) fun he =>
      hne (hq.eq_of_length_le (he ▸ hpre.length_le))
  rw [seat_spelled hp free hs]
  exact hpre

end Disk

/-- Making the directories of an absolute path does no more than that, also if it fails. -/
theorem Files.makeDirs_madeWay {up : Path} {names : List Name} (hup : up.Spells names)
    (o : Outside) (m : Machine) :
    m.disk.MadeWay up ((makeDirs up).run (answer o) m).2.disk := by
  refine (only_makeDirs up).run_rel (R := fun m m' => m.disk.MadeWay up m'.disk)
    (fun m => .refl up m.disk) (fun h h' => h.trans h') (fun q m hq => ?_) m
  rcases hq with hq | ⟨p, above, rfl⟩
  · rw [(same_quiet hq o m).disk]
    exact .refl up m.disk
  · obtain ⟨front, -, hp⟩ := above.spells hup
    rcases changed_mkdir o m p with ⟨-, hop, -⟩ | ⟨-, same⟩
    · exact Disk.mkdir_madeWay above hp.absolute hop
    · rw [same.disk]
      exact .refl up m.disk

end LayerPack
