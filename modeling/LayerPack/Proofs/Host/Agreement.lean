import LayerPack.Proofs.Archive.Contents
import LayerPack.Proofs.Machine.Finding

/-! Programs on files agree on twins. Names are sorted before they are used, and a read goes on to the
end, so neither the order of a listing nor the size of the chunks makes a difference. -/
namespace LayerPack

open Program Machine

variable {k : Kinship} {asked : Call → Prop} {o : Outside}

namespace Files

section

variable {σ : Type} {answer : Answers σ} {fair : Request × σ → Prop} {R : σ → σ → Prop} {p : Path}

theorem agrees_kindIs_of (kind : Kind) (seen : (stat p).Agrees answer fair R) :
    (kindIs kind p).Agrees answer fair R :=
  seen.bind fun r => by cases r <;> exact agrees_done _

theorem agrees_makeDir_of (made : (mkdir p).Agrees answer fair R)
    (seen : (stat p).Agrees answer fair R) : (makeDir p).Agrees answer fair R := by
  refine made.bind fun r => ?_
  cases r with
  | ok => exact agrees_done _
  | error e => exact (agrees_kindIs_of .dir seen).bind fun there => by cases there <;> exact agrees_done _

theorem agrees_makeDirsWithin (fuel : Nat)
    (made : ∀ up, Path.Above up p → (mkdir up).Agrees answer fair R)
    (seen : ∀ up, Path.Above up p → (stat up).Agrees answer fair R) :
    (makeDirsWithin fuel p).Agrees answer fair R := by
  induction fuel generalizing p with
  | zero => exact agrees_makeDir_of (made p (.refl p)) (seen p (.refl p))
  | succ fuel ih =>
    rw [makeDirsWithin]
    split
    · exact agrees_done _
    refine (made p (.refl p)).bind fun r => ?_
    cases r with
    | ok => exact agrees_done _
    | error e =>
      dsimp only
      split
      · split
        next => exact agrees_done _
        next up hup =>
          refine (ih (fun r hr => made r (.up hup hr)) fun r hr => seen r (.up hup hr)).bind fun r => ?_
          cases r with
          | error e => exact agrees_done _
          | ok => exact agrees_makeDir_of (made p (.refl p)) (seen p (.refl p))
      · exact (agrees_kindIs_of .dir (seen p (.refl p))).bind fun there => by
          cases there <;> exact agrees_done _

/-- Directories are made in the same way if the one that is asked for and those above it are. -/
theorem agrees_makeDirs_of (made : ∀ up, Path.Above up p → (mkdir up).Agrees answer fair R)
    (seen : ∀ up, Path.Above up p → (stat up).Agrees answer fair R) :
    (makeDirs p).Agrees answer fair R := agrees_makeDirsWithin _ made seen

end

section

variable (steady : o.Steady k asked)

include steady

/-- Every read of a file goes on to its end. -/
theorem finds_readFrom (buffer : Nat) (held unread : ByteArray) (m : Machine) :
    (readFrom buffer held (.data unread)).Finds o k m (.ok (held ++ unread)) := by
  generalize hf : OpenFile.data unread = file
  fun_induction readFrom buffer held file generalizing unread m with
  | case1 => cases hf
  | case2 held unread' ih =>
    cases hf
    refine Finds.bind (finds_read steady (.data unread') buffer) fun n lapsed disk => ?_
    dsimp only [readable]
    split
    next hz =>
      rw [ByteArray.size_eq_zero_iff.mp hz, ByteArray.append_empty]
      exact finds_done _
    next hz =>
      have hn := taken_le buffer (o.grant m.ticks buffer) unread'.size
      have again := ih (o.grant m.ticks buffer) hz _ n rfl
      rwa [ByteArray.append_assoc, ← ByteArray.extract_eq_extract_append_extract _ (Nat.zero_le _) hn,
        ByteArray.extract_zero_size] at again

/-- What there is to be read of an open file. -/
def contentOf : OpenFile → Except SystemError ByteArray
  | .directory => .error .isDirectory
  | .data content => .ok content

theorem finds_readAll (buffer : Nat) (file : OpenFile) (m : Machine) :
    (readAll buffer file).Finds o k m (contentOf file) := by
  cases file with
  | data content =>
    have h := finds_readFrom steady buffer .empty content m
    rwa [ByteArray.empty_append] at h
  | directory =>
    rw [readAll, readFrom]
    exact Finds.bind (finds_read steady .directory buffer) fun n _ _ => finds_done _

theorem agrees_readAll (buffer : Nat) (file : OpenFile) :
    (readAll buffer file).Agrees (answer o) Drawn (Twin k) :=
  Finds.abreast fun m m' _ => ⟨_, _, finds_readAll steady buffer file m,
    finds_readAll steady buffer file m', fun _ _ h => ⟨rfl, h⟩⟩

theorem agrees_stat (p : Path) : (stat p).Agrees (answer o) Drawn (Twin k) :=
  Machine.agrees_stat steady true p

theorem agrees_lstat (p : Path) : (lstat p).Agrees (answer o) Drawn (Twin k) :=
  Machine.agrees_stat steady false p

theorem agrees_kindIs (kind : Kind) (p : Path) : (kindIs kind p).Agrees (answer o) Drawn (Twin k) :=
  agrees_kindIs_of kind (agrees_stat steady p)

theorem agrees_makeDirs (p : Path) : (makeDirs p).Agrees (answer o) Drawn (Twin k) :=
  agrees_makeDirs_of (fun up _ => agrees_mkdir steady up) fun up _ => agrees_stat steady up

theorem agrees_removePath (p : Path) : (removePath p).Agrees (answer o) Drawn (Twin k) := by
  refine (agrees_lstat steady p).bind fun r => ?_
  cases r with
  | error e => exact agrees_done _
  | ok s =>
    refine Agrees.bind ?_ fun r => by cases r <;> exact agrees_done _
    split
    · exact agrees_removeTree steady p
    · exact agrees_unlink steady p

theorem agrees_listNames (dir : Path) : (listNames dir).Agrees (answer o) Drawn (Twin k) := by
  refine Abreast.bind (abreast_list steady dir) fun r r' => ?_
  rintro n n' ⟨both, h⟩
  rcases both.outcome with ⟨e, rfl, rfl⟩ | ⟨names, names', rfl, rfl, perm⟩
  · exact agrees_done _ n n' h
  · have sorted : (names.map Bytes.display).mergeSort Toml.keyLe =
        (names'.map Bytes.display).mergeSort Toml.keyLe :=
      mergeSort_of_perm (perm.map _) fun _ _ _ _ => Bytes.ofString_injective
    dsimp only
    rw [sorted]
    exact agrees_done _ n n' h

theorem agrees_collect (root : Path) : (collect root).Agrees (answer o) Drawn (Twin k) := by
  have below : (collect.below root).Agrees (answer o) Drawn (Twin k) := by
    refine Abreast.bind (abreast_snapshot steady root) fun r r' => ?_
    rintro n n' ⟨both, h⟩
    rcases both.outcome with ⟨e, rfl, rfl⟩ | ⟨node, node', rfl, rfl, copies⟩
    · exact agrees_done _ n n' h
    · dsimp only
      rw [copies.filesBelow]
      exact agrees_done _ n n' h
  refine (agrees_lstat steady root).bind fun r => ?_
  cases r with
  | error e => exact agrees_done _
  | ok s =>
    dsimp only
    split
    · exact agrees_done _
    · exact below
    · refine (agrees_stat steady root).bind fun r => ?_
      cases r with
      | error e => exact agrees_done _
      | ok s =>
        dsimp only
        split
        · exact below
        · exact agrees_done _

end

end Files

end LayerPack
