import LayerPack.Proofs.Disk.Decide
import LayerPack.Proofs.Disk.Seat
import LayerPack.Proofs.Pipeline.Requests
import LayerPack.Proofs.Settings.Apart

/-! What the reset of a workspace removes. Wherever links lead, nothing is lost but what lies at the
seat of the workspace and below it. As long as the workspace names the place that it spells, this is
none of the source tree, the current directory, and the output, since the settings were checked; a
link above the workspace can lead the reset to any of them. -/
namespace LayerPack

open Program Machine

variable {o : Outside} {m m' m'' : Machine} {p : Path}

namespace Machine

/-- The place lies at or below the entry that a path names. -/
def Wiped (m : Machine) (p : Path) (place : Place) : Prop :=
  ∃ seat, m.disk.seat m.cwd p = some seat ∧ seat <+: place

/-- The path names the place that it spells. -/
def Literal (m : Machine) (p : Path) : Prop :=
  ∀ place, m.disk.seat m.cwd p = some place → place = p.names

theorem literal_of_noLinkAbove (hp : p.Spells p.names) (hl : m.disk.root.NoLinkAbove p.names) :
    m.Literal p := fun _ => Disk.seat_spelled hp hl

/-- What stood somewhere else than at the entry that a path names, or below it, still stands there. -/
def Kept (p : Path) (m m' : Machine) : Prop :=
  ∀ place, m.disk.get? place ≠ none → ¬ m.Wiped p place → m'.disk.look place = m.disk.look place

theorem Kept.grown (h : Kept p m m') (g : Grown m' m'') : Kept p m m'' := by
  intro place there aside
  have same := h place there aside
  refine (g.1 place fun hn => there ?_).trans same
  exact Node.look_eq_none.mp (same.symm.trans (Node.look_eq_none.mpr hn))

theorem kept_of_clearedAt (h : m.disk.ClearedAt m.cwd p m'.disk) : Kept p m m' :=
  fun place _ aside => h place fun seat hs hp => aside ⟨seat, hs, hp⟩

theorem Same.wiped (h : Same m m') (place : Place) : m'.Wiped p place ↔ m.Wiped p place := by
  rw [Wiped, Wiped, h.disk, h.cwd]

theorem Same.keeps (h : Same m m') (p : Path) : Kept p m m' := fun place _ _ => by rw [h.disk]

theorem Same.kept (h : Same m m') (hk : Kept p m' m'') : Kept p m m'' := by
  intro place there aside
  have := hk place (h.disk ▸ there) fun hw => aside ((h.wiped place).mp hw)
  rw [this, h.disk]

end Machine

/-- A request of making directories: quiet, or the making of one. -/
def Request.Furnishes (q : Request) : Prop := q.Quiet ∨ ∃ p, q = .mkdir p

theorem Request.Makes.furnishes {q : Request} (h : q.Makes p) : q.Furnishes :=
  h.imp_right fun ⟨up, _, h⟩ => ⟨up, h⟩

theorem Machine.grown_furnishes {q : Request} (h : q.Furnishes) (o : Outside) (m : Machine) :
    Grown m (answer o q m).2 := by
  rcases h with h | ⟨p, rfl⟩
  · exact (same_quiet h o m).grown
  · exact grown_makes (.inr ⟨p, .refl p, rfl⟩) o m

theorem Machine.grown_run {α : Type} {program : Program α} (hp : program.Only Request.Furnishes)
    (o : Outside) (m : Machine) : Grown m (program.run (answer o) m).2 :=
  hp.run_rel (fun m => (Same.refl m).grown) Grown.trans (fun _ m hq => grown_furnishes hq o m) m

/-- Removing what a path names changes nothing else. -/
theorem Files.removePath_clears {parts : List Bytes} {name : Name}
    (hs : Disk.splitLast p.bytes = (parts, .name name false)) :
    (removePath p).Ends (answer o) m fun _ _ m' => m.disk.ClearedAt m.cwd p m'.disk := by
  refine Ends.bind (p := lstat p) (M := fun _ _ m₁ => Same m m₁)
    (same_quiet (q := .stat false p) trivial o m) ?_
  rintro (e | status) _ m₁ same
  · rw [← same.disk]
    exact .refl _ _ _
  rw [← same.disk, ← same.cwd]
  refine Ends.bind (M := fun _ _ m₂ => m₁.disk.ClearedAt m₁.cwd p m₂.disk) ?_ fun r _ _ cleared => by
    cases r <;> exact cleared
  split
  · change m₁.disk.ClearedAt m₁.cwd p (answer o (.removeTree p) m₁).2.disk
    obtain ⟨h | h, -⟩ := removeTree_cases o m₁ p
    · exact h ▸ Disk.removeTree_clearedAt hs
    · exact h ▸ Disk.ClearedAt.refl _ _ _
  · rcases changed_unlink o m₁ p with ⟨-, hop, -⟩ | ⟨-, same⟩
    · exact Disk.unlink_clearedAt hop
    · change m₁.disk.ClearedAt m₁.cwd p (answer o (.unlink p) m₁).2.disk
      exact same.disk ▸ Disk.ClearedAt.refl _ _ _

/-- Removing what a path names loses nothing else. -/
theorem Files.removePath_kept {parts : List Bytes} {name : Name}
    (hs : Disk.splitLast p.bytes = (parts, .name name false)) :
    (removePath p).Ends (answer o) m fun _ _ m' => Kept p m m' :=
  (removePath_clears hs).mono fun _ _ _ h => kept_of_clearedAt h

namespace Workspace

/-- What is left to do when the old workspace has been removed. -/
def furnish (root : Path) (removed : Except SystemError Bool) : Work Workspace := do
  let removed ← Work.ofExcept (ofSystem root removed)
  Work.now (logRemoved root removed)
  let w : Workspace := ⟨root⟩
  let made ← Work.await (Files.makeDirs w.dist)
  Work.ofExcept (ofSystem root made)
  let made ← Work.await (Files.makeDirs w.target)
  Work.ofExcept (ofSystem root made)
  Work.now (request (.log .debug ("Prepared workspace at " ++ root.display)))
  return w

theorem prepare_eq (root : Path) :
    prepare root = Work.await (Files.removePath root) >>= furnish root := rfl

theorem only_furnish {K : Request → Prop} (root : Path) (removed : Except SystemError Bool)
    (hD : ∀ q, q.Makes (Workspace.mk root).dist → K q)
    (hT : ∀ q, q.Makes (Workspace.mk root).target → K q) : (furnish root removed).Only K := by
  have quiet (q : Request) (h : q.Quiet) : K q := hD q (.inl h)
  have info (removed : Bool) : (logRemoved root removed).Only K := by
    cases removed with
    | false => trivial
    | true => exact only_request.mpr (quiet _ (Request.quiet_info (by simp)))
  have made {p : Path} (hK : ∀ q, q.Makes p → K q) : (Work.await (Files.makeDirs p)).Only K :=
    Work.Only.await (quiet _ trivial) ((Files.only_makeDirs p).mono hK)
  refine (Work.only_ofExcept _).bind fun removed => (Work.Only.now (info removed)).bind fun _ => ?_
  refine (made hD).bind fun _ => (Work.only_ofExcept _).bind fun _ => ?_
  refine (made hT).bind fun _ => (Work.only_ofExcept _).bind fun _ => ?_
  exact (Work.Only.now (only_request.mpr (quiet _ (Request.quiet_debug (by simp))))).bind fun _ =>
    Work.only_pure _

/-- What holds when the old workspace has been removed, and still holds whenever a directory of the new one
is made, holds in the end. -/
theorem furnish_inv {I : Machine → Prop} {root : Path} (start : I m)
    (makes : ∀ child ∈ [Bytes.ofString "dist", Bytes.ofString "target"], ∀ q n,
      q.Makes (root.child child) → I n → I (answer o q n).2)
    (removed : Except SystemError Bool) (deadline : Option Nat) :
    (furnish root removed deadline).Ends (answer o) m fun _ _ n => I n := by
  have asks : (furnish root removed).Only fun q =>
      ∃ child ∈ [Bytes.ofString "dist", Bytes.ofString "target"], q.Makes (root.child child) :=
    only_furnish _ _ (fun _ h => ⟨_, List.mem_cons_self, h⟩)
      fun _ h => ⟨_, List.mem_cons_of_mem _ List.mem_cons_self, h⟩
  exact (asks deadline).run_inv (fun q n ⟨child, hc, h⟩ => makes child hc q n h) start

theorem furnishes_furnish (root : Path) (removed : Except SystemError Bool) :
    (furnish root removed).Only Request.Furnishes :=
  only_furnish root removed (fun _ h => h.furnishes) fun _ h => h.furnishes

variable {root : Path} {parts : List Bytes} {name : Name}

theorem prepare_kept (hs : Disk.splitLast root.bytes = (parts, .name name false))
    (deadline : Option Nat) :
    (prepare root deadline).Ends (answer o) m fun _ _ m' => Kept root m m' := by
  rw [prepare_eq]
  refine Work.ends_bind.mpr (ends_await (fun _ m₁ same => ?_) fun m₁ same => ?_)
  · exact same.keeps root
  refine (Files.removePath_kept hs).mono fun removed _ m₂ kept => fun _ m₃ _ same' => ?_
  have kept : Kept root m m₃ := (same.kept kept).grown same'.grown
  exact ⟨kept.grown (grown_run (furnishes_furnish root removed deadline) o m₃), kept⟩

theorem cleanup_kept (hs : Disk.splitLast root.bytes = (parts, .name name false)) :
    (cleanup ⟨root⟩).Ends (answer o) m fun _ _ m' => Kept root m m' :=
  Ends.bind (Files.removePath_kept hs) fun _ _ _ kept => kept

/-- The reset of a checked workspace loses nothing but what its path names. If the workspace names
the place that it spells, then the source tree, the current directory, and the output are not lost,
provided that they are where they are spelled, too. -/
theorem reset_keeps_apart {s : Settings} (accepted : s.AcceptedIn m.cwd) :
    (∀ deadline, (prepare s.workspace deadline).Ends (answer o) m fun _ _ m' =>
      Kept s.workspace m m') ∧
    ((cleanup ⟨s.workspace⟩).Ends (answer o) m fun _ _ m' => Kept s.workspace m m') ∧
    (m.Literal s.workspace →
      (∀ place node, m.disk.resolve m.cwd true s.source = .ok (place, node) →
        place = s.source.names → ¬ m.Wiped s.workspace place) ∧
      ¬ m.Wiped s.workspace m.cwd ∧
      (m.Literal s.output → ∀ place, m.disk.seat m.cwd s.output = some place →
        ¬ m.Wiped s.workspace place)) := by
  have laid := accepted.accepted.laid
  have apart := accepted.apart
  obtain ⟨parts, name, hs⟩ := Disk.splitLast_ofNames laid.workspace.proper laid.notRoot
  rw [← laid.written.1] at hs
  refine ⟨prepare_kept hs, cleanup_kept hs, fun literal => ⟨?_, ?_, ?_⟩⟩
  · rintro place node - rfl ⟨seat, hseat, hpre⟩
    exact apart.source (literal seat hseat ▸ hpre)
  · rintro ⟨seat, hseat, hpre⟩
    exact apart.current (literal seat hseat ▸ hpre)
  · rintro output place hplace ⟨seat, hseat, hpre⟩
    rw [literal seat hseat, output place hplace] at hpre
    exact laid.apart hpre

set_option maxRecDepth 100000 in
/-- In a plain workspace the source tree is safe. A workspace whose path goes through a link to the
root is accepted as well, although it is the source tree, and then that is what is reset. -/
theorem linked_reset_hits_source :
    ((Settings.small "/work" "/out.zip").AcceptedIn [] ∧
      ¬ (Machine.small []).Wiped (.ofString "/work") [Bytes.ofString "src"]) ∧
    (Settings.small "/up/src" "/out.zip").AcceptedIn [] ∧
    (Machine.small [("up", .link [slash])]).Wiped (.ofString "/up/src") [Bytes.ofString "src"] ∧
    (prepare (.ofString "/up/src") none).Ends (answer (.small []))
      (.small [("up", .link [slash])]) fun _ _ m' =>
        Kept (.ofString "/up/src") (.small [("up", .link [slash])]) m' ∧
          m'.disk.get? [Bytes.ofString "src"] = some (.dir
            [(Bytes.ofString "dist", .dir []), (Bytes.ofString "target", .dir [])]) := by
  have plain : (Settings.small "/work" "/out.zip").AcceptedIn [] :=
    ⟨.small "/work" "/out.zip", .small [], .small [], by decide +kernel, rfl, by decide +kernel⟩
  have linked : (Settings.small "/up/src" "/out.zip").AcceptedIn [] :=
    ⟨.small "/up/src" "/out.zip", .small [], .small [], by decide +kernel, rfl, by decide +kernel⟩
  have literal : (Machine.small []).Literal (.ofString "/work") :=
    literal_of_noLinkAbove plain.accepted.laid.workspace (by decide +kernel)
  have source : (Machine.small []).disk.resolve [] true (.ofString "/src") =
      .ok ([Bytes.ofString "src"], .dir []) := by decide +kernel
  refine ⟨⟨plain, ?_⟩, linked, ⟨[Bytes.ofString "src"], by decide +kernel, List.prefix_rfl⟩, ?_⟩
  · obtain ⟨-, -, safe⟩ := reset_keeps_apart (o := .small []) (m := .small []) plain
    exact (safe literal).1 _ _ source (by decide +kernel)
  · have kept := (reset_keeps_apart (o := .small []) (m := .small [("up", .link [slash])]) linked).1
    refine (kept none).and ?_
    unfold Ends
    decide +kernel

end Workspace

end LayerPack
