import LayerPack.Shell.Condition
import LayerPack.Shell.Printing

/-! The programs that a machine comes with: small tools for files and text. Each gets its arguments
and leaves its exit status; a failure with one operand does not keep it from the others. -/
namespace LayerPack.Shell.Tool

/-- What a tool does, given the name under which it was called. -/
abbrev Action := Octets → List Octets → Shell Unit

def fail (name : Octets) (message : Octets) : Shell Unit := do
  let _ ← write 2 (name ++ ": ".toList ++ message ++ ['\n'])
  setStatus 1

/-- What is said about an operand that cannot be dealt with. -/
def about (what : String) (operand : Octets) (e : SystemError) : Octets :=
  what.toList ++ " '".toList ++ operand ++ "': ".toList ++ reason e

/-- The letters of all options and the operands, which may come in any order. -/
def options : List Octets → List Char × List Octets
  | [] => ([], [])
  | ['-', '-'] :: rest => ([], rest)
  | ('-' :: c :: letters) :: rest =>
    let (more, operands) := options rest
    (if c = '-' then more else c :: letters ++ more, operands)
  | operand :: rest =>
    let (more, operands) := options rest
    (more, operand :: operands)

/-- Changes the disk or says why that is not possible. -/
def change (name : Octets) (what : String) (operand : Octets)
    (f : Disk → Place → Path → Except SystemError Disk) : Shell Unit := do
  let s ← get
  match f s.disk s.cwd (Octets.toPath operand) with
  | .ok disk => set { s with disk }
  | .error e => fail name (about what operand e)

def missingOperand (name : Octets) : Shell Unit :=
  fail name ("missing operand\nTry '".toList ++ name ++
    " --help' for more information.".toList)

/-- Without operands there is nothing to do. -/
def needing (name : Octets) (operands : List Octets) (action : Shell Unit) : Shell Unit := do
  setStatus 0
  if operands = [] then missingOperand name else action

/-- The first part of a path that is there without being a directory. -/
def obstacle (s : State) (path : Octets) : Option Octets :=
  ((List.range path.length).map path.take).find? fun front =>
    path[front.length]? = some '/' &&
      ((s.disk.kind? s.cwd true (Octets.toPath front)).any fun kind => kind ≠ .dir)

def makeDirectory : Action := fun name args =>
  let (letters, operands) := options args
  needing name operands <| operands.forM fun p => do
    if letters.contains 'p' then
      match obstacle (← get) p with
      | some front => fail name (about "cannot create directory" front .notDirectory)
      | none => change name "cannot create directory" p fun d cwd path => d.mkdirs cwd path
    else change name "cannot create directory" p fun d cwd path => d.mkdir cwd path

def removeOne (name : Octets) (letters : List Char) (operand : Octets) : Shell Unit := do
  let s ← get
  let p := Octets.toPath operand
  let quiet := letters.contains 'f'
  match s.disk.kind? s.cwd false p with
  | some .dir =>
    if letters.contains 'r' || letters.contains 'R' then
      match s.disk.removeTree s.cwd p with
      | (.ok (), disk) => set { s with disk }
      | (.error e, disk) =>
        set { s with disk }
        fail name (about "cannot remove" operand e)
    else fail name (about "cannot remove" operand .isDirectory)
  | _ =>
    match s.disk.unlink s.cwd p with
    | .ok disk => set { s with disk }
    | .error e =>
      if quiet && e = .noEntry then return ()
      fail name (about "cannot remove" operand e)

def remove : Action := fun name args => do
  let (letters, operands) := options args
  if operands = [] && letters.contains 'f' then setStatus 0
  else needing name operands (operands.forM (removeOne name letters))

def removeDirectory : Action := fun name args =>
  let (_, operands) := options args
  needing name operands <| operands.forM fun p =>
    change name "failed to remove" p fun d cwd path => d.rmdir cwd path

def touch : Action := fun name args =>
  let (_, operands) := options args
  needing name operands <| operands.forM fun p =>
    change name "cannot touch" p fun d cwd path =>
      if d.kind? cwd true path = some .dir then .ok d
      else (d.openWrite cwd false path).map (·.2)

/-- The content of an operand, where a dash is the input. -/
def contentOf (operand : Octets) : Shell (Except SystemError Octets) := do
  if operand = ['-'] then return .ok (← readAll 0)
  let s ← get
  match s.disk.openRead s.cwd (Octets.toPath operand) with
  | .ok (.data content) => return .ok (Octets.ofContent content)
  | .ok .directory => return .error .isDirectory
  | .error e => return .error e

/-- Does something with the content of every operand, or of the input if there is none. -/
def forContents (name : Octets) (operands : List Octets) (f : Octets → Shell Unit) :
    Shell Unit := do
  setStatus 0
  (if operands = [] then [['-']] else operands).forM fun operand => do
    match ← contentOf operand with
    | .ok text => f text
    | .error e => fail name (operand ++ ": ".toList ++ reason e)

def concatenate : Action := fun name args => forContents name (options args).2 print

/-- The path that an operand gets: a directory takes it in under its own name. -/
def destination (s : State) (source target : Octets) : Octets :=
  match s.disk.kind? s.cwd true (Octets.toPath target) with
  | some .dir =>
    match (Octets.toPath source).fileName? with
    | some name => target ++ ['/'] ++ Octets.ofBytes name
    | none => target
  | _ => target

/-- Does something with each operand but the last one, and its destination. -/
def toLast (name : Octets) (operands : List Octets)
    (f : Octets → Octets → Shell Unit) : Shell Unit :=
  needing name operands <|
    match operands.getLast? with
    | none => return ()
    | some target => operands.dropLast.forM fun source => do
      f source (destination (← get) source target)

def move : Action := fun name args =>
  toLast name (options args).2 fun source target => do
    let s ← get
    match s.disk.stat s.cwd false (Octets.toPath source) with
    | .error e => fail name (about "cannot stat" source e)
    | .ok _ =>
      change name "cannot move" source fun d cwd path => d.rename cwd path (Octets.toPath target)

mutual
/-- Puts a copy of a tree at a path. -/
def copyNode (d : Disk) (cwd : Place) (dest : Path) : Node → Except SystemError Disk
  | .file _ mode content => do
    let isNew := (d.kind? cwd true dest).isNone
    let (h, d) ← d.openWrite cwd true dest
    let d := d.append h content
    if isNew then d.chmod cwd (mode &&& 0o7755) dest else return d
  | .link target => d.symlink cwd target dest
  | .dir es => do copyEntries (← d.mkdirs cwd dest) cwd dest es

def copyEntries (d : Disk) (cwd : Place) (dest : Path) :
    List (Name × Node) → Except SystemError Disk
  | [] => .ok d
  | (name, node) :: rest => do
    copyEntries (← copyNode d cwd (dest.child name) node) cwd dest rest
end

def copy : Action := fun name args =>
  let (letters, operands) := options args
  let deep := letters.any fun c => c = 'r' || c = 'R' || c = 'a'
  toLast name operands fun source target => do
    let s ← get
    match s.disk.snapshot s.cwd (Octets.toPath source) with
    | .error e => fail name (about "cannot stat" source e)
    | .ok node =>
      if node.isDir && !deep then
        fail name ("-r not specified; omitting directory '".toList ++ source ++ ['\''])
      else change name "cannot create regular file" target fun d cwd path =>
        copyNode d cwd path node

def link : Action := fun name args =>
  let (letters, operands) := options args
  toLast name operands fun source target => do
    if letters.contains 'f' then
      modify fun s => { s with
        disk := (s.disk.unlink s.cwd (Octets.toPath target)).toOption.getD s.disk }
    if letters.contains 's' then
      change name "failed to create symbolic link" target fun d cwd path =>
        d.symlink cwd source.toBytes path
    else fail name (about "failed to create hard link" target .unsupported)

/-- The mode that a text asks for, starting from another: an octal number, or letters. -/
def modeOf (text : Octets) (old : Nat) : Option Nat :=
  match Arithmetic.ofDigits 8 text with
  | some n => some n
  | none =>
    let who := text.takeWhile fun c => c = 'u' || c = 'g' || c = 'o' || c = 'a'
    let all := who = [] || who.contains 'a'
    let bit (c : Char) : Nat := if c = 'r' then 4 else if c = 'w' then 2 else 1
    match text.drop who.length with
    | op :: letters =>
      if letters.all fun c => c = 'r' || c = 'w' || c = 'x' then
        let bits := letters.foldl (fun n c => n ||| bit c) 0
        let shift (c : Char) (by_ : Nat) : Nat := if all || who.contains c then bits <<< by_ else 0
        let mask := shift 'u' 6 ||| shift 'g' 3 ||| shift 'o' 0
        if op = '+' then some (old ||| mask)
        else if op = '-' then some (old - (old &&& mask))
        else if op = '=' then some mask
        else none
      else none
    | [] => none

def changeMode : Action := fun name args =>
  match args with
  | [] => needing name [] (return ())
  | mode :: operands => needing name operands <| operands.forM fun p => do
    match (← get) |> fun s => s.disk.stat s.cwd true (Octets.toPath p) with
    | .error e => fail name (about "cannot access" p e)
    | .ok found =>
      match modeOf mode found.mode with
      | none => fail name ("invalid mode: '".toList ++ mode ++ ['\''])
      | some n => change name "changing permissions of" p fun d cwd path => d.chmod cwd n path

/-- A duration in milliseconds: a decimal number with a unit; none has no end. -/
def duration (text : Octets) : Option (Option Nat) :=
  if text = "infinity".toList || text = "inf".toList then some none
  else
    let whole := text.takeWhile Char.isDigit
    let rest := text.drop whole.length
    let (part, unit) := match rest with
      | '.' :: more => (more.takeWhile Char.isDigit, more.dropWhile Char.isDigit)
      | more => ([], more)
    let scale := match unit with
      | [] | ['s'] => some 1
      | ['m'] => some 60
      | ['h'] => some 3600
      | ['d'] => some 86400
      | _ => none
    if whole = [] && part = [] then none
    else scale.map fun k =>
      let number := ((String.ofList (whole ++ part)).toNat?).getD 0
      some (number * 1000 * k / Nat.pow 10 part.length)

def sleep : Action := fun name args => do
  setStatus 0
  args.forM fun a => do
    match duration a with
    | none => fail name ("invalid time interval '".toList ++ a ++ ['\''])
    | some (some n) => pass n
    | some none =>
      match (← get).deadline with
      | some limit => pass (limit + 1)
      | none => throw .endless

def list : Action := fun name args => do
  let (letters, operands) := options args
  setStatus 0
  (if operands = [] then [['.']] else operands).forM fun operand => do
    let s ← get
    let p := Octets.toPath operand
    match s.disk.list s.cwd p with
    | .ok names =>
      (names.mergeSort Bytes.le).forM fun n => do
        let n := Octets.ofBytes n
        if n.head? = some '.' && !letters.contains 'a' && !letters.contains 'A' then return ()
        printLine n
    | .error e =>
      if e = .notDirectory && (s.disk.stat s.cwd true p).toBool then printLine operand
      else
        fail name (about "cannot access" operand e)
        setStatus 2

/-- The lines of a text, each with its end. -/
def linesOf : Octets → List Octets
  | [] => []
  | c :: rest =>
    match c, linesOf rest with
    | '\n', lines => ['\n'] :: lines
    | c, [] => [[c]]
    | c, line :: lines => (c :: line) :: lines

/-- How many lines or bytes are asked for, and the files. -/
def amount : List Octets → Bool × Nat × List Octets
  | ['-', 'n'] :: n :: rest => (true, number n, rest)
  | ['-', 'c'] :: n :: rest => (false, number n, rest)
  | ('-' :: 'n' :: n) :: rest => (true, number n, rest)
  | ('-' :: 'c' :: n) :: rest => (false, number n, rest)
  | ('-' :: n) :: rest => if n = [] then (true, 10, ['-'] :: rest) else (true, number n, rest)
  | rest => (true, 10, rest)
where
  number (text : Octets) : Nat := (String.ofList text).toNat?.getD 0

def first : Action := fun name args =>
  let (byLine, n, operands) := amount args
  forContents name operands fun text =>
    print (if byLine then ((linesOf text).take n).flatten else text.take n)

def last : Action := fun name args =>
  let (byLine, n, operands) := amount args
  forContents name operands fun text =>
    let lines := linesOf text
    print (if byLine then (lines.drop (lines.length - n)).flatten else text.drop (text.length - n))

def countUp : Action := fun name args => do
  setStatus 0
  let number (text : Octets) : Int := ((Arithmetic.ofValue text).getD 0)
  let bounds := match args with
    | [b] => some (1, 1, number b)
    | [a, b] => some (number a, 1, number b)
    | [a, step, b] => some (number a, number step, number b)
    | _ => none
  match bounds with
  | none => missingOperand name
  | some (a, step, b) =>
    let count := if 0 < step then (b - a) / step + 1
      else if step < 0 then (a - b) / -step + 1 else 0
    (List.range count.toNat).forM fun (i : Nat) =>
      printLine (Arithmetic.digitsOf (a + step * i))

def baseName : Action := fun name args => do
  setStatus 0
  match args with
  | [] => missingOperand name
  | p :: rest =>
    let base := match (Octets.toPath p).components.getLast? with
      | some c => Octets.ofBytes c.bytes
      | none => p
    let ending := (rest.head?).getD []
    printLine (if ending ≠ [] && ending ≠ base && ending.isSuffixOf base then
      base.take (base.length - ending.length) else base)

def directoryName : Action := fun name args => do
  setStatus 0
  if args = [] then missingOperand name
  args.forM fun p =>
    let trimmed := (p.reverse.dropWhile (· = '/')).reverse
    let up := (trimmed.reverse.dropWhile (· ≠ '/')).dropWhile (· = '/')
    printLine (if p = [] then ['.'] else if trimmed = [] then ['/']
      else if !trimmed.contains '/' then ['.'] else if up = [] then ['/'] else up.reverse)

/-- A condition, and how it is said that something is wrong with it. -/
def conditionWith (complain : Octets → Shell Unit) : Action := fun name args => do
  let bracket := name.getLast? = some '['
  if bracket && args.getLast? ≠ some [']'] then complain "missing ]".toList
  else
    match Condition.verdict (← get) (if bracket then args.dropLast else args) with
    | .ok value => setStatus (if value then 0 else 1)
    | .error message => complain message

/-- A condition as a command of the shell. -/
def condition : Action := fun name =>
  conditionWith (fun message => refuse 2 (name ++ ": ".toList ++ message)) name

/-- A condition as a program. -/
def conditionProgram : Action := fun name =>
  conditionWith (fun message => do fail name message; setStatus 2) name

/-- Prints, or says that the output is closed. -/
def printOut (name text : Octets) : Shell Unit := do
  if ← write 1 text then return ()
  refuse 1 (name ++ ": ".toList ++ name ++ ": I/O error".toList)

def echo : Action := fun name args => do
  setStatus 0
  printOut name (Printing.echo args)

/-- The same without escapes. -/
def plainEcho : Action := fun _ args => do
  setStatus 0
  match args with
  | ['-', 'n'] :: rest => print ([' '].intercalate rest)
  | ['-', 'e'] :: rest => print (Printing.echo rest)
  | all => printLine ([' '].intercalate all)

def format : Action := fun name args => do
  setStatus 0
  match (match args with
    | ['-', '-'] :: rest => rest
    | rest => rest) with
  | [] => refuse 2 (name ++ ": usage: printf format [arg ...]".toList)
  | text :: rest =>
    let f := Printing.printf text rest
    printOut name f.printed
    f.warnings.forM fun w => refuse 1 (name ++ ": ".toList ++ w)
    match f.failure with
    | some message => refuse 2 (name ++ ": ".toList ++ message)
    | none => return ()

def workingDirectory : Action := fun _ _ => do
  setStatus 0
  printLine (Octets.ofBytes (Path.ofNames (← get).cwd).bytes)

def succeed : Action := fun _ _ => setStatus 0

def giveUp : Action := fun _ _ => setStatus 1

/-- All tools with their names. -/
def all : List (String × Action) := [
  ("[", conditionProgram), ("basename", baseName), ("cat", concatenate), ("chmod", changeMode),
  ("cp", copy), ("dirname", directoryName), ("echo", plainEcho), ("false", giveUp),
  ("head", first), ("ln", link), ("ls", list), ("mkdir", makeDirectory), ("mv", move),
  ("printf", format), ("pwd", workingDirectory), ("rm", remove), ("rmdir", removeDirectory),
  ("seq", countUp), ("sleep", sleep), ("tail", last), ("test", conditionProgram), ("touch", touch),
  ("true", succeed)]

/-- The programs that carry out other programs. -/
def carriers : List String := ["sh", "dash", "env"]

/-- How the file of a tool begins; its name follows. -/
def imageHead : Octets := '\x7f' :: "ELF".toList

def image (name : String) : ByteArray := Octets.toContent (imageHead ++ name.toList)

end LayerPack.Shell.Tool
