import LayerPack.Archive.Write
import LayerPack.Pipeline.Materialize
import LayerPack.Proofs.Pipeline.Mark
import LayerPack.Proofs.Program.Requests
import LayerPack.Workspace

/-! What the programs on files can ask of the host. Looking around is quiet; directories are only
made above the path that is asked for, and only the occupied path itself is removed. -/
namespace LayerPack

open Program Request

namespace Path

/-- The path itself and the paths that are reached from it by dropping last components. -/
inductive Above : Path → Path → Prop
  | refl (p : Path) : Above p p
  | up {p q r : Path} : p.parent? = some q → Above r q → Above r p

/-- The paths that are reached from a path by dropping last components, but not the path itself. -/
def Over (r p : Path) : Prop := ∃ q, p.parent? = some q ∧ Above r q

theorem Over.above {r p : Path} : Over r p → Above r p := fun ⟨_, hparent, above⟩ => .up hparent above

end Path

namespace Request

/-- Quiet, or the making of a directory at or above `p`. -/
def Makes (p : Path) (q : Request) : Prop := q.Quiet ∨ ∃ up, Path.Above up p ∧ q = .mkdir up

/-- Quiet, or the removal of what stands at `p`. -/
def Removes (p : Path) (q : Request) : Prop := q.Quiet ∨ q = .unlink p ∨ q = .removeTree p

theorem Quiet.makes {q : Request} (h : q.Quiet) (p : Path) : q.Makes p := .inl h

theorem Quiet.removes {q : Request} (h : q.Quiet) (p : Path) : q.Removes p := .inl h

theorem Makes.mark? {q : Request} {p : Path} (h : q.Makes p) : q.mark? = none := by
  rcases h with h | ⟨up, -, rfl⟩
  · exact h.mark?
  · rfl

theorem Removes.mark? {q : Request} {p : Path} (h : q.Removes p) : q.mark? = none := by
  rcases h with h | rfl | rfl
  · exact h.mark?
  · rfl
  · rfl

end Request

namespace Files

variable {K : Request → Prop}

theorem only_stat (p : Path) : (stat p).Only Quiet := only_request.mpr trivial

theorem only_lstat (p : Path) : (lstat p).Only Quiet := only_request.mpr trivial

theorem only_openRead (p : Path) : (openRead p).Only Quiet := only_request.mpr trivial

theorem only_kindIs (kind : Kind) (p : Path) : (kindIs kind p).Only Quiet :=
  (only_stat p).bind fun r => by cases r <;> trivial

theorem only_makeDir (p : Path) (hK : K (.mkdir p)) (hQ : ∀ q, Quiet q → K q) :
    (makeDir p).Only K := by
  refine (only_request.mpr hK).bind fun r => ?_
  cases r with
  | ok => trivial
  | error e =>
    exact ((only_kindIs .dir p).mono hQ).bind fun there => by cases there <;> trivial

theorem only_makeDirsWithin (fuel : Nat) (p : Path) (hK : ∀ up, Path.Above up p → K (.mkdir up))
    (hQ : ∀ q, Quiet q → K q) : (makeDirsWithin fuel p).Only K := by
  induction fuel generalizing p with
  | zero => exact only_makeDir p (hK p (.refl p)) hQ
  | succ fuel ih =>
    rw [makeDirsWithin]
    split
    · trivial
    refine (only_request.mpr (hK p (.refl p))).bind fun r => ?_
    cases r with
    | ok => trivial
    | error e =>
      dsimp only
      split
      · split
        next => trivial
        next up hup =>
          refine (ih up fun r hr => hK r (.up hup hr)).bind fun r => ?_
          cases r with
          | error e => trivial
          | ok => exact only_makeDir p (hK p (.refl p)) hQ
      · exact ((only_kindIs .dir p).mono hQ).bind fun there => by cases there <;> trivial

theorem only_makeDirs (p : Path) : (makeDirs p).Only (Makes p) :=
  only_makeDirsWithin _ p (fun up h => .inr ⟨up, h, rfl⟩) fun _ h => .inl h

theorem only_removePath (p : Path) : (removePath p).Only (Removes p) := by
  refine ((only_lstat p).mono fun q h => h.removes p).bind fun r => ?_
  cases r with
  | error e => trivial
  | ok s =>
    refine Only.bind ?_ fun r => by cases r <;> trivial
    split
    · exact only_request.mpr (.inr (.inr rfl))
    · exact only_request.mpr (.inr (.inl rfl))

theorem only_listNames (dir : Path) : (listNames dir).Only Quiet :=
  (only_request.mpr trivial).bind fun r => by cases r <;> trivial

theorem only_collect (root : Path) : (collect root).Only Quiet := by
  have below : (collect.below root).Only Quiet :=
    (only_request.mpr trivial).bind fun r => by cases r <;> trivial
  refine (only_lstat root).bind fun r => ?_
  cases r with
  | error e => trivial
  | ok s =>
    dsimp only
    split
    · trivial
    · exact below
    · refine (only_stat root).bind fun r => ?_
      cases r with
      | error e => trivial
      | ok s =>
        dsimp only
        split
        · exact below
        · trivial

/-- Reading on asks for nothing else. -/
theorem only_readFrom_of {K : Request → Prop} (buffer : Nat) (held : ByteArray) (file : OpenFile)
    (hK : ∀ file, K (.read file buffer)) : (readFrom buffer held file).Only K := by
  fun_induction readFrom buffer held file with
  | case1 held =>
    refine ⟨hK _, fun r => ?_⟩
    cases r <;> trivial
  | case2 held unread ih =>
    refine ⟨hK _, fun r => ?_⟩
    cases r with
    | error e => trivial
    | ok granted =>
      dsimp only
      split
      · trivial
      · exact ih granted ‹_›

theorem only_readFrom (buffer : Nat) (held : ByteArray) (file : OpenFile) :
    (readFrom buffer held file).Only Quiet := only_readFrom_of buffer held file fun _ => trivial

theorem only_readAll (buffer : Nat) (file : OpenFile) : (readAll buffer file).Only Quiet :=
  only_readFrom buffer .empty file

end Files

end LayerPack
