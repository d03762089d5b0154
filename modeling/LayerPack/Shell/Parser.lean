import LayerPack.Shell.Lexer

/-! From tokens to commands. Reserved words count only where a command can begin. A script is read
one line at a time: what stands before the first line that cannot be read is still carried out. -/
namespace LayerPack.Shell

structure Unreadable where
  line : Nat
  message : String

abbrev Grammar := StateT (List (Nat × Token)) (Except Unreadable)

namespace Grammar

/-- The next token, unless the script ends. -/
def peek : Grammar (Option Token) := fun ts =>
  .ok (match ts.head? with
    | some (_, .finish) => none
    | other => other.map (·.2), ts)

def line : Grammar Nat := fun ts => .ok ((ts.head?.map (·.1)).getD 1, ts)

def advance : Grammar Unit := fun ts => .ok ((), ts.drop 1)

/-- The words that mean something where a command can begin. -/
def reservedWords : List String := ["!", "\x7b", "\x7d", "case", "do", "done", "elif", "else",
  "esac", "fi", "for", "if", "in", "then", "until", "while"]

/-- A token as it is shown in a message. -/
def describe : Option Token → String
  | none => "end of file unexpected"
  | some (.symbol "\n") => "newline unexpected"
  | some (.symbol text) => "\"" ++ text ++ "\" unexpected"
  | some (.word w) =>
    match w.plain? with
    | some text =>
      if reservedWords.contains text then "\"" ++ text ++ "\" unexpected" else "word unexpected"
    | none => "word unexpected"
  | some (.unclosed message) => message
  | some _ => "redirection unexpected"

def unexpected {α : Type} (wanted : String := "") : Grammar α := do
  let token ← peek
  let at_ ← line
  let expecting := if wanted = "" then "" else " (expecting \"" ++ wanted ++ "\")"
  throw ⟨at_, "Syntax error: " ++ describe token ++ match token with
    | some (.unclosed _) => ""
    | _ => expecting⟩

/-- Takes a symbol if it is next. -/
def symbol? (text : String) : Grammar Bool := do
  match ← peek with
  | some (.symbol t) =>
    if t = text then
      advance
      return true
    else return false
  | _ => return false

def symbol (text : String) : Grammar Unit := do
  if ← symbol? text then return ()
  unexpected text

/-- The next word if it has no quotes in it. -/
def plain : Grammar (Option String) := do
  match ← peek with
  | some (.word w) => return w.plain?
  | _ => return none

/-- Takes a reserved word if it is next. -/
def reserved? (text : String) : Grammar Bool := do
  if (← plain) = some text then
    advance
    return true
  else return false

def reserved (text : String) : Grammar Unit := do
  if ← reserved? text then return ()
  unexpected text

/-- Items up to the first that is not there; each of them takes a token. -/
def collect {α : Type} (item : Grammar (Option α)) : Nat → Grammar (List α)
  | 0 => return []
  | fuel + 1 => do
    match ← item with
    | some a => return a :: (← collect item fuel)
    | none => return []

def many {α : Type} (item : Grammar (Option α)) : Grammar (List α) := do
  collect item ((← get).length + 1)

def newline : Grammar (Option Unit) := do
  if ← symbol? "\n" then return some () else return none

def newlines : Grammar Unit := do
  let _ ← many newline

def word : Grammar (Option Word) := do
  match ← peek with
  | some (.word w) =>
    advance
    return some w
  | _ => return none

def redirect : Grammar (Option Redirect) := do
  match ← peek with
  | some (.redirect descriptor direction) =>
    advance
    match ← word with
    | some target => return some ⟨descriptor, direction, target⟩
    | none => unexpected
  | _ => return none

/-- The words that end a list of commands. -/
def closers : List String := ["then", "else", "elif", "fi", "do", "done", "esac", "\x7d"]

def atEnd : Grammar Bool := do
  match ← peek with
  | none => return true
  | some (.symbol t) => return t = ")" || t = ";;"
  | some (.word w) => return (w.plain?.map closers.contains).getD false
  | _ => return false

/-- The name and value of a word that sets a variable. -/
def assignment? : Word → Option (Octets × Word)
  | .text false content :: rest =>
    let name := content.takeWhile Lexer.isNameChar
    match content.dropWhile Lexer.isNameChar with
    | '=' :: value =>
      if name.head?.any Lexer.isNameStart then
        some (name, if value = [] then rest else .text false value :: rest)
      else none
    | _ => none
  | _ => none

/-- Everything that a simple command can have in it. -/
inductive Piece where
  | word (word : Word)
  | redirect (redirect : Redirect)

def piece : Grammar (Option Piece) := do
  match ← redirect with
  | some r => return some (.redirect r)
  | none => return (← word).map .word

/-- Splits the words into those that set variables, which come first, and the others. -/
def splitAssignments : List Word → List (Octets × Word) × List Word
  | [] => ([], [])
  | w :: rest =>
    match assignment? w with
    | some a => let (more, words) := splitAssignments rest; (a :: more, words)
    | none => ([], w :: rest)

/-- The command that a name followed by brackets defines, or a simple command. -/
def simple (command : Grammar Form) : Grammar Form := do
  let at_ ← line
  let pieces ← many piece
  let words := pieces.filterMap fun
    | .word w => some w
    | .redirect _ => none
  let redirects := pieces.filterMap fun
    | .word _ => none
    | .redirect r => some r
  match pieces with
  | [] => unexpected
  | [.word w] =>
    match w.plain? with
    | some name =>
      if ← symbol? "(" then
        symbol ")"
        newlines
        return .function name.toList (← command)
    | none => pure ()
  | _ => pure ()
  let (assignments, words) := splitAssignments words
  return .simple at_ assignments words redirects

section
/- The grammar of one level of nesting, given lists of commands of the next level. -/
variable (list : Grammar Form)

def nonempty : Grammar Form := do
  newlines
  if (← peek).isNone then return .empty
  if ← atEnd then unexpected
  list

/-- What comes after the first condition. -/
def alternatives : Nat → Grammar Form
  | 0 => unexpected
  | fuel + 1 => do
    let condition ← nonempty list
    reserved "then"
    let body ← nonempty list
    if ← reserved? "elif" then return .branch condition body (← alternatives fuel)
    if ← reserved? "else" then
      let other ← nonempty list
      reserved "fi"
      return .branch condition body other
    reserved "fi"
    return .branch condition body .empty

def repetition (wanted : Bool) : Grammar Form := do
  let condition ← nonempty list
  reserved "do"
  let body ← nonempty list
  reserved "done"
  return .loop wanted condition body

def each : Grammar Form := do
  match ← plain with
  | none => unexpected
  | some name =>
    if !(name.toList.head?.any Lexer.isNameStart && name.toList.all Lexer.isNameChar) then
      throw ⟨← line, "Syntax error: Bad for loop variable"⟩
    advance
    newlines
    let items ←
      if ← reserved? "in" then pure (some (← many word)) else pure none
    let _ ← symbol? ";"
    newlines
    reserved "do"
    let body ← nonempty list
    reserved "done"
    return .each name.toList items body

def otherPattern : Grammar (Option Word) := do
  if ← symbol? "|" then
    match ← word with
    | some w => return some w
    | none => unexpected
  else return none

def oneCase : Grammar (Option (List Word × Form)) := do
  newlines
  if ← reserved? "esac" then return none
  let _ ← symbol? "("
  match ← word with
  | none => unexpected ")"
  | some first =>
    let more ← many otherPattern
    symbol ")"
    newlines
    let body ← if ← atEnd then pure .empty else list
    newlines
    if ← symbol? ";;" then return some (first :: more, body)
    if (← plain) = some "esac" then return some (first :: more, body)
    unexpected ";;"

def choice : Grammar Form := do
  match ← word with
  | none => unexpected
  | some subject =>
    newlines
    reserved "in"
    return .choice subject (← many (oneCase list))

/-- A compound command without its redirections, if one begins here. -/
def compound : Grammar (Option Form) := do
  if ← symbol? "(" then
    let body ← nonempty list
    symbol ")"
    return some (.subshell body)
  match ← plain with
  | some "\x7b" =>
    advance
    let body ← nonempty list
    reserved "\x7d"
    return some body
  | some "if" =>
    advance
    return some (← alternatives list ((← get).length + 1))
  | some "while" =>
    advance
    return some (← repetition list true)
  | some "until" =>
    advance
    return some (← repetition list false)
  | some "for" =>
    advance
    return some (← each list)
  | some "case" =>
    advance
    return some (← choice list)
  | _ => return none

/-- A command; the fuel is for functions whose bodies are functions. -/
def command : Nat → Grammar Form
  | 0 => unexpected
  | fuel + 1 => do
    let at_ ← line
    match ← compound list with
    | some body =>
      let redirects ← many redirect
      return if redirects.isEmpty then body else .redirected at_ body redirects
    | none =>
      if ← atEnd then unexpected
      simple (command fuel)

def stage : Grammar (Option Form) := do
  if ← symbol? "|" then
    newlines
    return some (← command list 4)
  else return none

def pipeline : Grammar Form := do
  let negated ← reserved? "!"
  let first ← command list 4
  let more ← many (stage list)
  let form := if more.isEmpty then first else .pipeline (first :: more)
  return if negated then .negation form else form

/-- Another pipeline and whether it is carried out after success. -/
def link : Grammar (Option (Bool × Form)) := do
  if ← symbol? "&&" then
    newlines
    return some (true, ← pipeline list)
  if ← symbol? "||" then
    newlines
    return some (false, ← pipeline list)
  return none

def chain : Grammar Form := do
  let first ← pipeline list
  let links ← many (link list)
  return links.foldl (fun form (after, next) =>
    if after then .both form next else .either form next) first

/-- One more chain of a list, after what separates it from the one before. -/
def next (lineOnly : Bool) : Grammar (Option Form) := do
  let separated ← if ← symbol? ";" then pure true else symbol? "&"
  let ended ← if lineOnly then pure false else do
    match ← peek with
    | some (.symbol "\n") =>
      newlines
      pure true
    | _ => pure false
  if !separated && !ended then return none
  if ← atEnd then return none
  match ← peek with
  | some (.symbol "\n") => return none
  | _ => return some (← chain list)

/-- A list of chains up to what ends it. -/
def chains (lineOnly : Bool) : Grammar Form := do
  let first ← chain list
  let more ← many (next list lineOnly)
  return if more.isEmpty then first else .sequence (first :: more)

end

/-- A list of commands with at most so many levels of nesting. -/
def list : Nat → Grammar Form
  | 0 => unexpected
  | depth + 1 => chains (list depth) false

/-- How deep commands can be nested. -/
def maxDepth : Nat := 200

/-- One line of a script, which goes on where commands in it do. -/
def scriptLine : Grammar Form := do
  let form ← chains (list maxDepth) true
  match ← peek with
  | none => return form
  | some (.symbol "\n") => return form
  | _ => unexpected

def script : Nat → List (Nat × Token) → List Form
  | 0, _ => []
  | fuel + 1, tokens =>
    match tokens.dropWhile (fun (_, t) => t matches .symbol "\n") with
    | [] | [(_, .finish)] => []
    | tokens =>
      match scriptLine tokens with
      | .ok (form, rest) => form :: script fuel rest
      | .error e => [.unreadable e.line e.message]

end Grammar

/-- The commands of a script. -/
def formOf (script : Octets) : Form :=
  let tokens := tokensOf script
  .sequence (Grammar.script (tokens.length + 1) tokens)

end LayerPack.Shell
