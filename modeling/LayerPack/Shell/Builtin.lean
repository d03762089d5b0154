import LayerPack.Shell.Redirection
import LayerPack.Shell.Tool

/-! The commands that act on the shell itself: its variables, arguments, directory and options, and
the ways out of loops, functions and the script. -/
namespace LayerPack.Shell.Builtin

open Expansion

abbrev Action := List Octets → Shell Unit

/-- The builtins whose failures end the shell, and before which variables are set for good. -/
def special : List String := [":", ".", "break", "continue", "eval", "exec", "exit", "export",
  "readonly", "return", "set", "shift", "trap", "unset"]

def natural? (a : Octets) : Option Nat :=
  if a = [] || !a.all Char.isDigit then none else (String.ofList a).toNat?

/-- The number that a command is given, or another one. -/
def count (usual : Nat) (args : List Octets) (name : String) : Shell Nat :=
  match args with
  | [] => return usual
  | a :: _ =>
    match natural? a with
    | some n => return n
    | none => abandon (name.toList ++ ": Illegal number: ".toList ++ a)

def exit : Action := fun args => do
  let n ← count (← get).status args "exit"
  setStatus (n % 256)
  throw .exit

def leaveFunction : Action := fun args => do
  let n ← count (← get).status args "return"
  setStatus n
  throw .returned

def leaveLoop : Action := fun args => do
  let n ← count 1 args "break"
  setStatus 0
  let loops := (← get).loops
  if 0 < loops then throw (.leave (min n loops))

def againLoop : Action := fun args => do
  let n ← count 1 args "continue"
  setStatus 0
  let loops := (← get).loops
  if 0 < loops then throw (.again (min n loops))

def shift : Action := fun args => do
  let n ← count 1 args "shift"
  let s ← get
  if s.arguments.length < n then abandon "shift: can't shift that many".toList
  set { s with arguments := s.arguments.drop n, status := 0 }

/-- Splits an argument into a name and a value. -/
def definition (a : Octets) : Octets × Option Octets :=
  match a.dropWhile (· ≠ '=') with
  | _ :: value => (a.takeWhile (· ≠ '='), some value)
  | [] => (a, none)

def isName (a : Octets) : Bool := a.head?.any Lexer.isNameStart && a.all Lexer.isNameChar

def sorted (bindings : List Variable) : List Variable :=
  bindings.mergeSort fun a b => Bytes.le a.name.toBytes b.name.toBytes

/-- Marks variables and gives them values; without names it shows those that are marked. -/
def mark (command : String) (isMarked : Variable → Bool) (f : Variable → Variable) :
    Action := fun args => do
  setStatus 0
  let args := args.filter (· ≠ ['-', 'p'])
  if args = [] then
    (sorted ((← get).bindings.filter isMarked)).forM fun v =>
      printLine (command.toList ++ ' ' :: v.name ++ (v.value.map fun text =>
        "='".toList ++ text ++ ['\'']).getD [])
  args.forM fun a => do
    let (name, value) := definition a
    if !isName name then
      abandon (command.toList ++ ": ".toList ++ name ++ ": bad variable name".toList)
    match value with
    | some text => assign name text
    | none => pure ()
    modify fun s => put (f ((binding? s name).getD { name, value := none })) s

def unset : Action := fun args => do
  setStatus 0
  let functions := args.head? = some ['-', 'f']
  (args.filter fun a => a.head? ≠ some '-').forM fun name => do
    if functions then
      modify fun s => { s with functions := s.functions.filter (·.1 ≠ name) }
    else
      match binding? (← get) name with
      | some { constant := true, .. } =>
        abandon ("unset: ".toList ++ name ++ ": is read only".toList)
      | _ => modify (forget name)

def localVariables : Action := fun args => do
  setStatus 0
  args.forM fun a => do
    let (name, value) := definition a
    modify fun s => { s with locals := (name, binding? s name) :: s.locals }
    match value with
    | some text => assign name text
    | none => pure ()

def setOption (on : Bool) (letter : Char) (o : Options) : Options :=
  match letter with
  | 'e' => { o with stopOnFailure := on }
  | 'u' => { o with strict := on }
  | 'f' => { o with literalNames := on }
  | 'x' => { o with trace := on }
  | _ => o

/-- Options by their long names. -/
def letterOf (name : Octets) : Char :=
  match String.ofList name with
  | "errexit" => 'e'
  | "nounset" => 'u'
  | "noglob" => 'f'
  | "xtrace" => 'x'
  | _ => ' '

/-- Applies the options at the front; the rest is left. -/
def applyOptions : List Octets → Options → Options × List Octets
  | sign :: rest, o =>
    match sign with
    | ['-', '-'] => (o, sign :: rest)
    | ['-', 'o'] | ['+', 'o'] =>
      match rest with
      | name :: rest => applyOptions rest (setOption (sign.head? = some '-') (letterOf name) o)
      | [] => (o, [])
    | '-' :: c :: letters =>
      applyOptions rest ((c :: letters).foldl (fun o l => setOption true l o) o)
    | '+' :: c :: letters =>
      applyOptions rest ((c :: letters).foldl (fun o l => setOption false l o) o)
    | _ => (o, sign :: rest)
  | [], o => (o, [])

/-- Sets options and arguments; without arguments it shows all variables. -/
def setAll : Action := fun args => do
  setStatus 0
  let s ← get
  if args = [] then
    (sorted s.bindings).forM fun v =>
      match v.value with
      | some text => printLine (v.name ++ "='".toList ++ text ++ ['\''])
      | none => return ()
  else
    let (options, rest) := applyOptions args s.options
    set { s with
      options
      arguments := match rest with
        | [] => s.arguments
        | ['-', '-'] :: rest => rest
        | rest => rest }

/-- A path with the dots in it resolved without a look at the disk. -/
def logical (base p : Octets) : Octets :=
  Octets.ofBytes ((Octets.toPath base).absolute (Octets.toPath p)).bytes

def changeDirectory : Action := fun args => do
  let s ← get
  let args := args.filter fun a => a ≠ ['-', 'L'] && a ≠ ['-', 'P']
  let dest := match args with
    | [] => (value? s "HOME".toList).getD []
    | ['-'] :: _ => (value? s "OLDPWD".toList).getD s.path
    | dir :: _ => dir
  let path := if dest = [] then s.path else logical s.path dest
  match s.disk.resolve s.cwd true (Octets.toPath path) with
  | .ok (place, .dir _) =>
    assign "OLDPWD".toList s.path
    assign "PWD".toList path
    modify fun s => { s with cwd := place, path, status := 0 }
    if args = [['-']] then printLine path
  | _ => refuse 2 ("cd: can't cd to ".toList ++ dest)

def showDirectory : Action := fun args => do
  setStatus 0
  let s ← get
  printLine (if args = [['-', 'P']] then Octets.ofBytes (Path.ofNames s.cwd).bytes else s.path)

/-- A line of input with its escapes: a backslash protects the next character and joins lines. -/
def inputLine (raw : Bool) : Nat → Shell (Option (List Cell × Bool))
  | 0 => return none
  | fuel + 1 => do
    match ← readLine 0 with
    | none => return none
    | some (text, ended) =>
      if raw then return some (text.map fun c => { char := c, fromValue := true }, ended)
      let (cells, open_) := protect text
      if open_ && ended then
        match ← inputLine raw fuel with
        | some (more, ended) => return some (cells ++ more, ended)
        | none => return some (cells, false)
      else return some (cells, ended)
where
  protect : Octets → List Cell × Bool
    | [] => ([], false)
    | ['\\'] => ([], true)
    | '\\' :: c :: rest =>
      let (more, open_) := protect rest
      ({ char := c, quoted := true } :: more, open_)
    | c :: rest =>
      let (more, open_) := protect rest
      ({ char := c, fromValue := true } :: more, open_)

def isSeparator (separators : Octets) (c : Cell) : Bool :=
  c.fromValue && separators.contains c.char

def isSpaceSeparator (separators : Octets) (c : Cell) : Bool :=
  isSeparator separators c && Split.isSpace c.char

/-- Gives each variable a part of the line; the last one gets all that is left. -/
def distribute (separators : Octets) : List Octets → List Cell → Shell Unit
  | [], _ => return ()
  | [name], cells => do
    let text := (cells.dropWhile (isSpaceSeparator separators)).reverse
    assign name (Pattern.textOf (text.dropWhile (isSpaceSeparator separators)).reverse)
  | name :: rest, cells => do
    let cells := cells.dropWhile (isSpaceSeparator separators)
    let here := cells.takeWhile fun c => !isSeparator separators c
    let after := (cells.drop here.length).dropWhile (isSpaceSeparator separators)
    let after := match after with
      | c :: more =>
        if isSeparator separators c && (cells.drop here.length).head?.any (isSeparator separators)
        then more else after
      | [] => []
    assign name (Pattern.textOf here)
    distribute separators rest after

def read : Action := fun args => do
  let raw := args.contains ['-', 'r']
  let names := args.filter fun a => a.head? ≠ some '-'
  let s ← get
  match names.find? fun a => !isName a with
  | some name => refuse 2 ("read: ".toList ++ name ++ ": bad variable name".toList)
  | none =>
    if names = [] then refuse 2 "read: arg count".toList
    else
      match ← inputLine raw 1000 with
      | none =>
        distribute (separators s) names []
        setStatus 1
      | some (cells, ended) =>
        distribute (separators s) names cells
        setStatus (if ended then 0 else 1)

/-- The signals by their names. -/
def signals : List (String × Nat) := [("HUP", 1), ("INT", 2), ("QUIT", 3), ("ILL", 4), ("TRAP", 5),
  ("ABRT", 6), ("BUS", 7), ("FPE", 8), ("KILL", 9), ("USR1", 10), ("SEGV", 11), ("USR2", 12),
  ("PIPE", 13), ("ALRM", 14), ("TERM", 15), ("STKFLT", 16), ("CHLD", 17), ("CONT", 18),
  ("STOP", 19), ("TSTP", 20), ("TTIN", 21), ("TTOU", 22), ("URG", 23), ("XCPU", 24), ("XFSZ", 25),
  ("VTALRM", 26), ("PROF", 27), ("WINCH", 28), ("IO", 29), ("PWR", 30), ("SYS", 31)]

/-- What is said of a process that a signal has ended; of two of them nothing is said. -/
def obituary (n : Nat) : Option String :=
  match n with
  | 1 => some "Hangup"
  | 2 | 13 => none
  | 3 => some "Quit"
  | 4 => some "Illegal instruction"
  | 5 => some "Trace/breakpoint trap"
  | 6 => some "Aborted"
  | 7 => some "Bus error"
  | 8 => some "Floating point exception"
  | 9 => some "Killed"
  | 10 => some "User defined signal 1"
  | 11 => some "Segmentation fault"
  | 12 => some "User defined signal 2"
  | 14 => some "Alarm clock"
  | 15 => some "Terminated"
  | 16 => some "Stack fault"
  | 24 => some "CPU time limit exceeded"
  | 25 => some "File size limit exceeded"
  | 26 => some "Virtual timer expired"
  | 27 => some "Profiling timer expired"
  | 29 => some "I/O possible"
  | 30 => some "Power failure"
  | 31 => some "Bad system call"
  | n => some ("Signal " ++ toString n)

def signal? (a : Octets) : Option Nat :=
  match natural? a with
  | some n => if n ≤ 64 then some n else none
  | none =>
    let name := String.ofList (a.map Char.toUpper)
    if name = "EXIT" then some 0 else signals.lookup name

/-- The signals that nobody notices unless they ask for them. -/
def isHarmless (n : Nat) : Bool := n = 0 || n = 17 || n = 18 || n = 23 || n = 28

/-- The signals that stop a program without ending it. -/
def isHalting (n : Nat) : Bool := n = 19 || n = 20 || n = 21 || n = 22

def trapName (n : Nat) : Octets := (toString n).toList

/-- Sends a signal to the shell itself. -/
def receive (run : Octets → Shell Unit) (n : Nat) : Shell Unit := do
  let s ← get
  match s.traps.lookup (trapName n) with
  | some script =>
    if n ≠ 9 && n ≠ 19 && n ≠ 0 then
      if script ≠ [] then
        run script
        setStatus s.status
      return ()
  | none => pure ()
  if isHarmless n then return ()
  if isHalting n then
    match s.deadline with
    | some limit => pass (limit + 1)
    | none => throw .endless
  else throw (.killed n)

def kill (run : Octets → Shell Unit) : Action := fun args => do
  setStatus 0
  let (signal, targets) := match args with
    | ['-', 's'] :: name :: rest => (signal? name, rest)
    | ['-', '-'] :: rest => (some 15, rest)
    | ('-' :: c :: name) :: rest => (signal? (c :: name), rest)
    | rest => (some 15, rest)
  match signal with
  | none =>
    match args with
    | ['-', 's'] :: name :: _ =>
      refuse 2 ("kill: invalid signal number or name: ".toList ++ name)
    | first :: _ => refuse 2 ("kill: Illegal option ".toList ++ first.take 2)
    | [] => return ()
  | some n =>
    if targets = [] then
      refuse 2 ("kill: Usage: kill [-s sigspec | -signum | -sigspec] [pid | job]... or\n" ++
        "kill -l [exitstatus]").toList
    targets.forM fun t => do
      let s ← get
      if t = digits s.pid || t = ['0'] then receive run n
      else if (natural? t).isSome then refuse 1 "kill: No such process\n".toList
      else refuse 2 ("kill: Illegal number: ".toList ++ t)

def setTrap : Action := fun args => do
  setStatus 0
  let (script, names) := match args with
    | ['-', '-'] :: script :: rest => (script, rest)
    | script :: rest => (script, rest)
    | [] => ([], [])
  names.forM fun name => do
    match signal? name with
    | none => do
      let _ ← write 2 ("trap: ".toList ++ name ++ ": bad trap\n".toList)
      setStatus 1
    | some n =>
      modify fun s =>
        let others := s.traps.filter (·.1 ≠ trapName n)
        { s with traps := if script = ['-'] then others else (trapName n, script) :: others }

def octal4 (n : Nat) : Octets :=
  let digits := Nat.toDigits 8 n
  List.replicate (4 - digits.length) '0' ++ digits

def showMask : Action := fun args => do
  setStatus 0
  match args with
  | [] => printLine (octal4 (← get).mask)
  | a :: _ =>
    match Arithmetic.ofDigits 8 a with
    | some n => modify fun s => { s with mask := n }
    | none => refuse 2 ("umask: Illegal mode: ".toList ++ a)

def done : Action := fun _ => setStatus 0

/-- The builtins that need nothing but the state, by name. -/
def plain : List (String × Action) := [
  (":", done), ("true", done), ("false", fun _ => setStatus 1), ("exit", exit),
  ("return", leaveFunction), ("break", leaveLoop), ("continue", againLoop), ("shift", shift),
  ("export", mark "export" (·.exported) fun v => { v with exported := true }),
  ("readonly", mark "readonly" (·.constant) fun v => { v with constant := true }),
  ("unset", unset),
  ("local", localVariables), ("set", setAll), ("cd", changeDirectory), ("pwd", showDirectory),
  ("read", read), ("trap", setTrap), ("umask", showMask), ("wait", done), ("times", done),
  ("hash", done), ("echo", Tool.echo "echo".toList), ("printf", Tool.format "printf".toList),
  ("test", Tool.condition "test".toList), ("[", Tool.condition ['['])]

/-- The builtins that carry out other commands. -/
def carriers : List String := ["eval", ".", "exec", "command", "kill", "type"]

def isBuiltin (name : Octets) : Bool :=
  (plain.lookup (String.ofList name)).isSome || carriers.contains (String.ofList name)

end LayerPack.Shell.Builtin
