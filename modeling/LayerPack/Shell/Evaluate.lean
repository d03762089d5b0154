import LayerPack.Shell.Builtin
import LayerPack.Shell.Parser

/-! Carrying out commands. A command is a function of the shell, a builtin, a tool or another
script; all of them act on the same state, and what belongs to one process alone is put back when
the process ends. One level of a command is carried out by `step`, which leaves the commands inside
to its argument. -/
namespace LayerPack.Shell

open Expansion

/-! ### Programs on the disk -/

/-- What an executable file holds. -/
inductive Image where
  | tool (name : Octets)
  | script (interpreter : Octets) (argument : Option Octets)
  | text

/-- The first line of a script names its interpreter and at most one argument for it. -/
def imageOf (content : Octets) : Image :=
  match content with
  | '#' :: '!' :: rest =>
    let line := (rest.takeWhile (· ≠ '\n')).dropWhile Lexer.isBlank
    let line := (line.reverse.dropWhile Lexer.isBlank).reverse
    let interpreter := line.takeWhile fun c => !Lexer.isBlank c
    let argument := (line.drop interpreter.length).dropWhile Lexer.isBlank
    if interpreter = [] then .text
    else .script interpreter (if argument = [] then none else some argument)
  | content =>
    if Tool.imageHead.isPrefixOf content then .tool (content.drop Tool.imageHead.length) else .text

/-- What a path holds that is to be executed. -/
def executable (s : State) (path : Octets) : Except SystemError Image := do
  match (← s.disk.resolve s.cwd true (Octets.toPath path)).2 with
  | .file _ mode content =>
    if mode &&& 0o111 = 0 then throw .noAccess
    return imageOf (Octets.ofContent content)
  | _ => throw .noAccess

/-- The tool that carries out a program in the end, with its name and arguments: a script hands its
path to its interpreter. -/
def toolFor (s : State) : Nat → Octets → Octets → List Octets →
    Except SystemError (Octets × Octets × List Octets)
  | 0, _, _, _ => .error .tooManyLinks
  | fuel + 1, path, name, args => do
    match ← executable s path with
    | .tool tool => return (tool, name, args)
    | .script interpreter argument =>
      toolFor s fuel interpreter interpreter (argument.toList ++ path :: args)
    | .text => throw .badExecutable

/-- How many scripts can interpret one another. -/
def maxInterpreters : Nat := 5

def resolveTool (s : State) (path name : Octets) (args : List Octets) :
    Except SystemError (Octets × Octets × List Octets) :=
  toolFor s maxInterpreters path name args

def splitColons (text : Octets) : List Octets :=
  match text with
  | [] => [[]]
  | c :: rest =>
    match splitColons rest with
    | [] => [[c]]
    | part :: parts => if c = ':' then [] :: part :: parts else (c :: part) :: parts

def defaultSearch : Octets := "/usr/local/sbin:/usr/local/bin:/usr/sbin:/usr/bin:/sbin:/bin".toList

/-- The paths at which a program of a name is looked for. -/
def candidates (s : State) (name : Octets) : List Octets :=
  if name.contains '/' then [name]
  else
    (splitColons ((value? s "PATH".toList).getD defaultSearch)).map fun dir =>
      if dir = [] then name else dir ++ '/' :: name

def isProgram (s : State) (path : Octets) : Bool :=
  match s.disk.resolve s.cwd true (Octets.toPath path) with
  | .ok (_, .file _ mode _) => mode &&& 0o111 != 0
  | _ => false

def find (s : State) (name : Octets) : Option Octets :=
  if name.contains '/' then some name else (candidates s name).find? (isProgram s)

/-! ### Processes -/

/-- The state of a new process: it gets the exported variables and nothing else of a shell. -/
def freshen (s : State) : State :=
  { s with
    bindings := s.bindings.filter (·.exported), functions := [], locals := [], arguments := []
    options := {}, guarded := false, traps := [], status := 0, pid := s.pid + 1 }

/-- Waits for another process. If a signal ends it, that is said and seen in its status. -/
def asProcess (action : Shell Unit) : Shell Unit := do
  let before ← get
  try
    inside do
      modify freshen
      action
  catch
    | .killed signal => do
      modify fun s => { before with
        disk := s.disk, buffers := s.buffers, sources := s.sources, time := s.time
        status := 128 + signal }
      match Builtin.obituary signal with
      | some text => let _ ← write 2 (text.toList ++ ['\n'])
      | none => return ()
    | i => throw i

/-- Ends a shell: what was put off to the end is done now. -/
def atExit (run : Octets → Shell Unit) : Shell Unit := do
  let s ← get
  match s.traps.lookup (Builtin.trapName 0) with
  | none => return ()
  | some script =>
    set { s with traps := s.traps.filter (·.1 ≠ Builtin.trapName 0) }
    try
      run script
      setStatus s.status
    catch
      | .exit => return ()
      | i => throw i

/-- Carries out an action to the end of a shell. -/
def toEnd (run : Octets → Shell Unit) (action : Shell Unit) : Shell Unit := do
  try action
  catch
    | .exit | .returned | .leave _ | .again _ => pure ()
    | i => throw i
  atExit run

/-- A whole script in a shell of its own. -/
def perform (run : Octets → Shell Unit) (script : Octets) : Shell Unit := do
  modify fun s => { s with line := 1 }
  toEnd run (run script)

/-- A part of a script in a copy of the shell, which has only the traps that ignore a signal. -/
def subshell (run : Octets → Shell Unit) (action : Shell Unit) : Shell Unit :=
  inside do
    modify fun s => { s with traps := s.traps.filter (·.2 = []) }
    toEnd run action

/-- Where a shell finds its script. -/
inductive Source where
  | given (script : Octets)
  | file (path : Octets)
  | input
  | missing

/-- Reads the options of a shell: its options, its script, and its name and arguments. -/
def invocation : Bool → List Octets → Options → Options × Source × List Octets
  | asText, args, o =>
    match args with
    | ('-' :: c :: letters) :: rest =>
      if c = '-' then (o, source asText rest, drop asText rest)
      else
        let o := (c :: letters).foldl (fun o l => Builtin.setOption true l o) o
        let asText := asText || (c :: letters).contains 'c'
        if c = 's' then (o, .input, rest) else invocation asText rest o
    | ('+' :: _) :: rest => invocation asText rest o
    | rest => (o, source asText rest, drop asText rest)
where
  source (asText : Bool) : List Octets → Source
    | [] => if asText then .missing else .input
    | first :: _ => if asText then .given first else .file first
  drop (asText : Bool) (rest : List Octets) : List Octets := if asText then rest.drop 1 else rest

/-- The shell as a program. -/
def shell (run : Octets → Shell Unit) (name : Octets) (args : List Octets) : Shell Unit := do
  let (options, source, rest) := invocation false args {}
  let named := match source with
    | .input => name :: rest
    | _ => if rest = [] then [name] else rest
  modify fun s => { s with
    options, self := named.headD name, arguments := named.drop 1, line := 0 }
  match source with
  | .missing => complain "-c requires an argument".toList; setStatus 2
  | .given script => perform run script
  | .input => perform run (← readAll 0)
  | .file path =>
    let s ← get
    match s.disk.openRead s.cwd (Octets.toPath path) with
    | .ok (.data content) => perform run (Octets.ofContent content)
    | .ok .directory => return ()
    | .error e =>
      set { s with self := name }
      complain ("cannot open ".toList ++ path ++ ": ".toList ++ openReason false e)
      setStatus 2

/-- Sets variables for a command and takes them away from the front of its arguments. -/
def setForCommand : List Octets → Shell (List Octets)
  | [] => return []
  | a :: rest =>
    match Builtin.definition a with
    | (name, some value) => do
      modify (put { name, value := some value, exported := true })
      setForCommand rest
    | (_, none) => return a :: rest

/-- Carries out a program in the process at hand, or says why that is not possible. -/
def execute (run : Octets → Shell Unit) :
    Nat → Octets → Octets → List Octets → Shell (Option SystemError)
  | 0, _, _, _ => return some .tooManyLinks
  | fuel + 1, path, name, args => do
    match resolveTool (← get) path name args with
    | .error e => return some e
    | .ok (tool, name, args) =>
      if tool = "sh".toList || tool = "dash".toList then
        shell run name args
        return none
      else if tool = "env".toList then
        match ← setForCommand args with
        | [] =>
          (environment (← get)).forM fun (name, value) => printLine (name ++ '=' :: value)
          return none
        | command :: rest =>
          match find (← get) command with
          | none => return some .noEntry
          | some path => execute run fuel path command rest
      else
        match Tool.all.lookup (String.ofList tool) with
        | some action =>
          action name args
          return none
        | none => return some .badExecutable

/-- A file without an interpreter is read by the shell itself. -/
def executeOrRead (run : Octets → Shell Unit) (path name : Octets) (args : List Octets) :
    Shell (Option SystemError) := do
  match ← execute run maxInterpreters path name args with
  | some e =>
    if e = .badExecutable then
      shell run path (path :: args)
      return none
    else return some e
  | none => return none

/-- The failure of a program to start, and the status that goes with it. -/
def startFailure (name : Octets) (e : SystemError) : Shell Unit :=
  if name = [] then refuse 127 ": Permission denied".toList
  else if e = .noEntry || e = .notDirectory then refuse 127 (name ++ ": not found".toList)
  else refuse 126 (name ++ ": ".toList ++ reason e)

/-- Carries out a program as a process of its own. -/
def launch (run : Octets → Shell Unit) (name : Octets) (args : List Octets) : Shell Unit := do
  match find (← get) name with
  | none => startFailure name .noEntry
  | some path =>
    match resolveTool (← get) path name args with
    | .error e => if e = .badExecutable then start path else startFailure name e
    | .ok _ => start path
where
  start (path : Octets) : Shell Unit :=
    asProcess do
      let _ ← executeOrRead run path name args

/-! ### Simple commands -/

/-- Sets the variables that stand before a command. -/
def setVariables (run : Octets → Shell Unit) (exported : Bool) :
    List (Octets × Word) → Shell Unit
  | [] => return ()
  | (name, word) :: rest => do
    assign name (← single run word)
    if exported then
      modify fun s => put { (binding? s name).getD { name, value := none } with exported := true } s
    setVariables run exported rest

/-- How many functions can call one another. -/
def maxCalls : Nat := 1000

/-- A function gets arguments of its own, and its local variables end with it. -/
def call (body : Shell Unit) (args : List Octets) : Shell Unit := do
  if maxCalls ≤ (← get).calls then
    abandon "Maximum function recursion depth (1000) reached".toList
  let restore (before after : State) : State :=
    after.locals.foldl (fun s (name, old) =>
      match old with
      | some v => put v s
      | none => forget name s)
      { after with
        arguments := before.arguments, locals := before.locals, loops := before.loops
        calls := before.calls }
  restoring restore do
    modify fun s => { s with arguments := args, locals := [], loops := 0, calls := s.calls + 1 }
    try body
    catch
      | .returned => return ()
      | i => throw i

/-- What the shell would carry out for a name. -/
def describe (verbose : Bool) (name : Octets) : Shell Unit := do
  let s ← get
  let say (short long : Octets) : Shell Unit := do
    setStatus 0
    printLine (if verbose then name ++ " is ".toList ++ long else short)
  if (s.functions.lookup name).isSome then say name "a shell function".toList
  else if Builtin.isBuiltin name then
    say name (if Builtin.special.contains (String.ofList name) then
      "a special shell builtin".toList else "a shell builtin".toList)
  else
    match find s name with
    | some path => if isProgram s path then say path path else missing
    | none => missing
where
  missing : Shell Unit := do
    if verbose then print (name ++ ": not found\n".toList)
    setStatus 127

/-- Reads commands from a file in the shell itself. -/
def readFile (run : Octets → Shell Unit) (args : List Octets) : Shell Unit := do
  match args with
  | [] => abandon ".: filename argument required".toList
  | path :: _ =>
    let s ← get
    let found := if path.contains '/' then some path
      else (candidates s path).find? fun p =>
        s.disk.kind? s.cwd true (Octets.toPath p) = some .file
    match found with
    | none => abandon (".: ".toList ++ path ++ ": not found".toList)
    | some p =>
      match s.disk.openRead s.cwd (Octets.toPath p) with
      | .ok (.data content) =>
        setStatus 0
        try run (Octets.ofContent content)
        catch
          | .returned => return ()
          | i => throw i
      | .ok .directory => return ()
      | .error e => abandon (".: cannot open ".toList ++ path ++ ": ".toList ++ openReason false e)

/-- Gives the process to another program. -/
def replace (run : Octets → Shell Unit) (args : List Octets) : Shell Unit := do
  match args with
  | [] => setStatus 0
  | name :: rest =>
    match find (← get) name with
    | none => refuse 127 ("exec: ".toList ++ name ++ ": not found".toList)
    | some path =>
      match resolveTool (← get) path name rest with
      | .error e =>
        if e = .noEntry || e = .notDirectory then
          refuse 127 ("exec: ".toList ++ name ++ ": not found".toList)
        else refuse 126 ("exec: ".toList ++ name ++ ": ".toList ++ reason e)
      | .ok _ =>
        modify fun s => { freshen s with pid := s.pid }
        let _ ← executeOrRead run path name rest
    throw .exit

/-- Carries out a command that is no function. -/
def runCommand (run : Octets → Shell Unit) : Nat → Octets → List Octets → Shell Unit
  | 0, _, _ => return ()
  | fuel + 1, name, args =>
    match String.ofList name with
    | "eval" => do
      setStatus 0
      run ([' '].intercalate args)
    | "." => readFile run args
    | "exec" => replace run args
    | "kill" => Builtin.kill run args
    | "type" => args.forM (describe true)
    | "command" =>
      match args with
      | ['-', 'v'] :: names => names.forM (describe false)
      | ['-', 'V'] :: names => names.forM (describe true)
      | ['-', 'p'] :: name :: rest => runCommand run fuel name rest
      | name :: rest => runCommand run fuel name rest
      | [] => setStatus 0
    | text =>
      match Builtin.plain.lookup text with
      | some action => action args
      | none => launch run name args

/-- Stops the script after a failure if that was asked for. -/
def check : Shell Unit := do
  let s ← get
  if s.options.stopOnFailure && !s.guarded && s.status ≠ 0 then throw .exit

def showTrace (args : List Octets) : Shell Unit := do
  if (← get).options.trace then
    let _ ← write 2 ("+ ".toList ++ [' '].intercalate args ++ ['\n'])

/-- Shows the variables that a command without words has set. -/
def showAssignments (assignments : List (Octets × Word)) : Shell Unit := do
  let s ← get
  if !assignments.isEmpty then
    showTrace (assignments.map fun (name, _) => name ++ '=' :: (value? s name).getD [])

def simple (run : Octets → Shell Unit) (body : Form → Shell Unit) (line : Nat)
    (assignments : List (Octets × Word)) (words : List Word) (redirects : List Redirect) :
    Shell Unit := do
  modify fun s => { s with line, nested := none }
  match ← arguments run words with
  | [] =>
    redirected run redirects (return ()) do
      setVariables run false assignments
      showAssignments assignments
      modify fun s => { s with status := s.nested.getD 0 }
  | name :: args =>
    showTrace (name :: args)
    let isSpecial := Builtin.special.contains (String.ofList name)
    let back (before after : State) : State := assignments.foldl (fun s (name, _) =>
      match binding? before name with
      | some v => put v s
      | none => forget name s) after
    match (← get).functions.lookup name with
    | some form =>
      redirected run redirects (return ()) do
        restoring back do
          setVariables run true assignments
          call (body form) args
    | none =>
      if name = "exec".toList && args = [] then
        if ← redirectAll run redirects then setStatus 0
        else
          setStatus 2
          throw .exit
      else if isSpecial then
        redirected run redirects (throw .exit) do
          setVariables run false assignments
          runCommand run 9 name args
      else
        redirected run redirects (return ()) do
          if assignments.isEmpty then runCommand run 9 name args
          else
            restoring back do
              setVariables run true assignments
              runCommand run 9 name args
  check

/-! ### Compound commands -/

/-- Carries out a condition, whose failure stops nothing. -/
def guardedly (action : Shell Unit) : Shell Unit := do
  let before := (← get).guarded
  restoring (fun _ after => { after with guarded := before }) do
    modify fun s => { s with guarded := true }
    action

def succeeded : Shell Bool := return (← get).status = 0

/-- How a loop goes on after a turn. -/
inductive Turn where
  | next
  | stop
  | leave (interrupt : Interrupt)

namespace Turn

def ofOutcome : Except Interrupt Unit → Turn
  | .ok () => next
  | .error (.leave n) => if n ≤ 1 then stop else leave (.leave (n - 1))
  | .error (.again n) => if n ≤ 1 then next else leave (.again (n - 1))
  | .error i => leave i

end Turn

/-- Turns of a loop, each after its condition has ended as wanted. -/
def turns (wanted : Bool) (condition body : Shell Unit) : Nat → Nat → State →
    Except Interrupt Unit × State
  | 0, _, s => (.error .endless, s)
  | fuel + 1, status, s =>
    match (guardedly condition).run s with
    | (.error i, s) =>
      match Turn.ofOutcome (.error i) with
      | .next => turns wanted condition body fuel status s
      | .stop => (.ok (), { s with status := 0 })
      | .leave i => (.error i, s)
    | (.ok (), s) =>
      if (s.status = 0) = wanted then
        match body.run s with
        | (outcome, s) =>
          match Turn.ofOutcome outcome with
          | .next => turns wanted condition body fuel s.status s
          | .stop => (.ok (), s)
          | .leave i => (.error i, s)
      else (.ok (), { s with status })

/-- Counts the loop that an action is. -/
def looping (action : Shell Unit) : Shell Unit :=
  restoring (fun before after => { after with loops := before.loops }) do
    modify fun s => { s with loops := s.loops + 1 }
    action

/-- A loop that has made so many turns is taken to have no end. -/
def maxTurns : Nat := 200000

def forEach (name : Octets) (body : Shell Unit) :
    List Octets → State → Except Interrupt Unit × State
  | [], s => (.ok (), s)
  | item :: rest, s =>
    match (do assign name item; body : Shell Unit).run s with
    | (outcome, s) =>
      match Turn.ofOutcome outcome with
      | .next => forEach name body rest s
      | .stop => (.ok (), s)
      | .leave i => (.error i, s)

/-- The stages of a pipeline one after the other, each in a shell of its own. -/
def pipe (body : Form → Shell Unit) : List Form → Option Octets → Shell Unit
  | [], _ => return ()
  | [last], input => inside (feeding input (body last))
  | first :: rest, input => do
    let text ← outputOf (feeding input (body first))
    pipe body rest (some text)
where
  feeding (input : Option Octets) (action : Shell Unit) : Shell Unit := do
    match input with
    | some text =>
      let c ← addSource text
      modify (setChannel 0 (some c))
    | none => pure ()
    action

/-- The first case of which a pattern fits. -/
def choose (run : Octets → Shell Unit) (subject : Octets) :
    List (List Word × Form) → Shell (Option Form)
  | [] => return none
  | (patterns, form) :: rest => do
    if ← anyFits patterns then return some form else choose run subject rest
where
  anyFits : List Word → Shell Bool
    | [] => return false
    | w :: rest => do
      if Pattern.fits (← pattern run w) subject then return true else anyFits rest

/-- One level of a command. -/
def step (body : Form → Shell Unit) (form : Form) : Shell Unit :=
  let run (script : Octets) : Shell Unit := body (formOf script)
  match form with
  | .empty => return ()
  | .simple line assignments words redirects => simple run body line assignments words redirects
  | .redirected line form redirects => do
    modify fun s => { s with line }
    redirected run redirects check (body form)
  | .subshell form => do
    subshell run (body form)
    check
  | .pipeline stages => do
    pipe body stages none
    check
  | .negation form => do
    guardedly (body form)
    modify fun s => { s with status := if s.status = 0 then 1 else 0 }
  | .both first second => do
    guardedly (body first)
    if ← succeeded then body second
  | .either first second => do
    guardedly (body first)
    if ← succeeded then return () else body second
  | .sequence forms => forms.forM body
  | .branch condition onTrue onFalse => do
    guardedly (body condition)
    if ← succeeded then body onTrue
    else
      setStatus 0
      body onFalse
  | .loop wanted condition form =>
    looping fun s => turns wanted (body condition) (body form) maxTurns 0 s
  | .each name items form => do
    let list ← match items with
      | some words => arguments run words
      | none => pure (← get).arguments
    setStatus 0
    looping fun s => forEach name (body form) list s
  | .choice subject cases => do
    let text ← single run subject
    let chosen ← choose run text cases
    setStatus 0
    match chosen with
    | some form => body form
    | none => return ()
  | .function name form => do
    setStatus 0
    modify fun s => { s with functions := (name, form) :: s.functions.filter (·.1 ≠ name) }
  | .unreadable line message => do
    modify fun s => { s with line }
    abandon message.toList

/-- Commands that are nested too deep overflow the stack. -/
def overflow : Nat := 11

/-- Carries out a command with at most so many levels of nesting. -/
def evaluate : Nat → Form → Shell Unit
  | 0, _ => throw (.killed overflow)
  | depth + 1, form => step (evaluate depth) form

def maxNesting : Nat := 2000

/-- Carries out a script. -/
def runScript (script : Octets) : Shell Unit := evaluate maxNesting (formOf script)

end LayerPack.Shell
