import LayerPack.Text.Utf8

/-! Paths as raw bytes. A path is read as a list of components: repeated slashes, trailing slashes
and inner dots do not count, a leading dot does. Everything here is lexical; where a path leads is
the business of the disk. -/
namespace LayerPack

/-- A file name: the bytes between two slashes. -/
abbrev Name := Bytes

def slash : UInt8 := 0x2F

def dot : Name := [0x2E]

def dotdot : Name := [0x2E, 0x2E]

/-- The parts of a byte string between its slashes; there is always at least one. -/
def splitSlash : Bytes → List Bytes
  | [] => [[]]
  | b :: rest =>
    match splitSlash rest with
    | [] => [[b]]
    | part :: parts => if b = slash then [] :: part :: parts else (b :: part) :: parts

def joinSlash : List Bytes → Bytes
  | [] => []
  | [part] => part
  | part :: parts => part ++ slash :: joinSlash parts

inductive Component where
  | root
  | current
  | parent
  | normal (name : Name)
  deriving DecidableEq

namespace Component

def bytes : Component → Bytes
  | root => [slash]
  | current => dot
  | parent => dotdot
  | normal name => name

def isNormal : Component → Bool
  | normal _ => true
  | _ => false

def rank : Component → Nat
  | root => 0
  | current => 1
  | parent => 2
  | normal _ => 3

/-- Names are ordered by their bytes and come after the other components. -/
def le (a b : Component) : Bool :=
  match a, b with
  | normal m, normal n => Bytes.le m n
  | _, _ => a.rank ≤ b.rank

end Component

structure Path where
  bytes : Bytes
  deriving DecidableEq

namespace Path

def ofString (s : String) : Path := ⟨Bytes.ofString s⟩

/-- The path as a reader sees it. -/
def display (p : Path) : String := Bytes.display p.bytes

def isEmpty (p : Path) : Bool := p.bytes.isEmpty

def isAbsolute (p : Path) : Bool := p.bytes.head? == some slash

/-- What the parts after the first component stand for. -/
def componentOf? (part : Bytes) : Option Component :=
  if part = [] ∨ part = dot then none
  else if part = dotdot then some .parent
  else some (.normal part)

/-- The beginning that is never dropped, a root slash or a leading dot, and the rest. -/
def splitHead (b : Bytes) : Bytes × Bytes :=
  match b with
  | 0x2F :: rest => ([slash], rest)
  | [0x2E] => (dot, [])
  | 0x2E :: 0x2F :: rest => (dot, slash :: rest)
  | _ => ([], b)

def headComponent (b : Bytes) : List Component :=
  if b = [slash] then [.root] else if b = dot then [.current] else []

def components (p : Path) : List Component :=
  let (head, body) := splitHead p.bytes
  headComponent head ++ (splitSlash body).filterMap componentOf?

/-- The parts of a body without those at its end that name nothing. -/
def dropVoid (parts : List Bytes) : List Bytes :=
  (parts.reverse.dropWhile fun part => (componentOf? part).isNone).reverse

/-- The path without its last component; the root and the empty path have none. -/
def parent? (p : Path) : Option Path :=
  let (head, body) := splitHead p.bytes
  match dropVoid (splitSlash body) with
  | [] => if head = dot then some ⟨[]⟩ else none
  | parts => some ⟨head ++ joinSlash (dropVoid parts.dropLast)⟩

/-- The last component if it is a name. -/
def fileName? (p : Path) : Option Name :=
  match p.components.getLast? with
  | some (.normal name) => some name
  | _ => none

/-- Appends a path. An absolute one takes the place of the first, an empty one adds a slash. -/
def join (p q : Path) : Path :=
  if q.isAbsolute then q
  else if p.bytes = [] ∨ p.bytes.getLast? = some slash then ⟨p.bytes ++ q.bytes⟩
  else ⟨p.bytes ++ slash :: q.bytes⟩

def child (p : Path) (name : Name) : Path := p.join ⟨name⟩

/-- Puts a name in the place of the last component, or after the path if that is not a name. -/
def withFileName (p : Path) (name : Name) : Path :=
  match p.fileName?, p.parent? with
  | some _, some up => up.child name
  | _, _ => p.child name

/-- The components after those of `base`, if the path begins with them. -/
def below? (base p : Path) : Option (List Component) :=
  if base.components.isPrefixOf p.components then
    some (p.components.drop base.components.length)
  else none

/-- The path lies at or below `base`, component by component. -/
def startsWith (p base : Path) : Bool := base.components.isPrefixOf p.components

def leComponents : List Component → List Component → Bool
  | [], _ => true
  | _ :: _, [] => false
  | a :: as, b :: bs => if a = b then leComponents as bs else a.le b

/-- The component-wise order of paths. -/
def le (p q : Path) : Bool := leComponents p.components q.components

/-- Goes through components from a place given by its names: a root starts anew, a parent
removes the last name and stays at the root. -/
def settle : List Name → List Component → List Name
  | names, [] => names
  | _, .root :: rest => settle [] rest
  | names, .current :: rest => settle names rest
  | names, .parent :: rest => settle names.dropLast rest
  | names, .normal name :: rest => settle (names ++ [name]) rest

/-- The absolute path with these names. -/
def ofNames (names : List Name) : Path := ⟨slash :: joinSlash names⟩

/-- The names of a path that starts from the directory `cwd`, with dots resolved lexically. -/
def namesFrom (cwd p : Path) : List Name := settle (settle [] cwd.components) p.components

/-- Absolute without dots: relative paths start from `cwd`, links are not followed. -/
def absolute (cwd p : Path) : Path := ofNames (namesFrom cwd p)

/-- The part of a file name before its last dot; a dot at the very beginning does not count. -/
def stem (name : Name) : Name :=
  match name.reverse.dropWhile (· ≠ 0x2E) with
  | [] => name
  | [_] => name
  | _ :: before => before.reverse

end Path

end LayerPack
