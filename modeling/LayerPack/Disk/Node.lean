import LayerPack.Path.Basic

/-! The tree of a file system. A directory holds its entries in the order in which it lists them;
that order carries no other meaning. The view of a tree is `Node.get?`: what stands at a place
given by names. -/
namespace LayerPack

inductive Node where
  /-- A regular file; the number tells it from every other file, also of the same content. -/
  | file (id : Nat) (mode : Nat) (content : ByteArray)
  /-- A symbolic link holds the bytes of the path that it leads to. -/
  | link (target : Bytes)
  | dir (entries : List (Name × Node))

abbrev Entries := List (Name × Node)

namespace Entries

def find? : Entries → Name → Option Node
  | [], _ => none
  | (n, node) :: rest, name => if n = name then some node else find? rest name

/-- Changes the entry of a name: a new one goes to the end, `none` drops it. -/
def alter (name : Name) (f : Option Node → Option Node) : Entries → Entries
  | [] => match f none with
    | some node => [(name, node)]
    | none => []
  | (n, node) :: rest =>
    if n = name then
      match f (some node) with
      | some node' => (n, node') :: rest
      | none => rest
    else (n, node) :: alter name f rest

end Entries

namespace Node

def isDir : Node → Bool
  | dir _ => true
  | _ => false

def isFile : Node → Bool
  | file .. => true
  | _ => false

def isLink : Node → Bool
  | link _ => true
  | _ => false

def entries : Node → Entries
  | dir es => es
  | _ => []

/-- What stands at a place; links on the way are not followed. -/
def get? : Node → List Name → Option Node
  | node, [] => some node
  | dir es, name :: rest =>
    match Entries.find? es name with
    | some node => node.get? rest
    | none => none
  | _, _ :: _ => none

/-- Changes what stands at a place below the tree; directories on the way must be there. -/
def alter (f : Option Node → Option Node) : List Name → Node → Node
  | [name], dir es => dir (Entries.alter name f es)
  | name :: rest, dir es => dir (Entries.alter name (Option.map (alter f rest)) es)
  | _, node => node

mutual
/-- The same tree with the entries of every directory in the order of their names. -/
def arrange : Node → Node
  | dir es => dir ((arrangeAll es).mergeSort fun a b => Bytes.le a.1 b.1)
  | file id mode content => file id mode content
  | link target => link target

def arrangeAll : List (Name × Node) → List (Name × Node)
  | [] => []
  | (name, node) :: rest => (name, node.arrange) :: arrangeAll rest
end

mutual
/-- Everything in the tree that is not a directory, each with its place, in listing order. -/
def leaves : Node → List (List Name × Node)
  | dir es => leavesAll es
  | file id mode content => [([], file id mode content)]
  | link target => [([], link target)]

def leavesAll : List (Name × Node) → List (List Name × Node)
  | [] => []
  | (name, node) :: rest =>
    (node.leaves.map fun (place, leaf) => (name :: place, leaf)) ++ leavesAll rest
end

mutual
/-- How many directory levels the tree has. -/
def height : Node → Nat
  | dir es => heightAll es + 1
  | _ => 0

def heightAll : List (Name × Node) → Nat
  | [] => 0
  | (_, node) :: rest => max node.height (heightAll rest)
end

mutual
/-- Some entry in the tree has a name of which `f` holds. -/
def anyName (f : Name → Bool) : Node → Bool
  | dir es => anyNameOf f es
  | _ => false

def anyNameOf (f : Name → Bool) : List (Name × Node) → Bool
  | [] => false
  | (name, node) :: rest => f name || node.anyName f || anyNameOf f rest
end

mutual
/-- The length of the longest name in the tree. -/
def longestName : Node → Nat
  | dir es => longestNameOf es
  | _ => 0

def longestNameOf : List (Name × Node) → Nat
  | [] => 0
  | (name, node) :: rest => max name.length (max node.longestName (longestNameOf rest))
end

end Node

end LayerPack
