import LayerPack.Archive.EntryName
import LayerPack.Hash.Sha256
import LayerPack.Host.Files

/-! Fingerprints of files and of trees. A tree is hashed as the sequence of its files in path order,
each as its name inside the archive, a zero byte, and its content. -/
namespace LayerPack.Archive

open Program

def hashBuffer : Nat := 8192

/-- Opens and reads a file for a hash. -/
def readForHash (p : Path) : Program (Except Error ByteArray) := do
  match ← Files.openRead p with
  | .error e => return .error (.files "opening file for hashing" p e)
  | .ok file =>
    match ← Files.readAll hashBuffer file with
    | .error e => return .error (.files "reading file for hash calculation" p e)
    | .ok content => return .ok content

/-- The digest of a single file. -/
def fileDigest (p : Path) : Program (Except Error String) := do
  return (← readForHash p).map Sha256.hexDigest

/-- What one file adds to the digest of a tree. -/
def record (name : String) (content : ByteArray) : ByteArray :=
  name.toUTF8 ++ [0].toByteArray ++ content

/-- The records of files below a root. -/
def recordsOf (root : Path) : List Path → Work ByteArray
  | [] => return .empty
  | p :: rest => do
    let name ← Work.ofExcept ((entryName root p).mapError .other)
    let content ← Work.ofExcept (← Work.await (readForHash p))
    return record name content ++ (← recordsOf root rest)

/-- The digest of the tree below a root. -/
def treeDigest (root : Path) : Work String := do
  let files ← Work.ofExcept (← Work.await (Files.collect root))
  return Sha256.hexDigest (← recordsOf root files)

end LayerPack.Archive
