import LayerPack.Shell.Expansion

/-! Where commands read from and write to. The descriptors that a command is given are taken back
when it ends. -/
namespace LayerPack.Shell

open Expansion

/-- What the shell says about a file that cannot be opened. -/
def openReason (making : Bool) (e : SystemError) : Octets :=
  if e = .noEntry || e = .notDirectory then
    (if making then "Directory nonexistent" else "No such file").toList
  else reason e

def cannotOpen (making : Bool) (path : Octets) (e : SystemError) : Octets :=
  (if making then "cannot create " else "cannot open ").toList ++ path ++ ": ".toList ++
    openReason making e

/-- The descriptors that have names of their own. -/
def device? (s : State) (path : Octets) : Option (Option Channel) :=
  match String.ofList path with
  | "/dev/null" => some (some .nowhere)
  | "/dev/stdin" => some (channel? s 0)
  | "/dev/stdout" => some (channel? s 1)
  | "/dev/stderr" => some (channel? s 2)
  | _ => none

def openOutput (truncate : Bool) (path : Octets) : Shell (Except Octets Channel) := do
  let s ← get
  match s.disk.openWrite s.cwd truncate (Octets.toPath path) with
  | .ok (h, disk) =>
    set { s with disk }
    return .ok (.file h)
  | .error e => return .error (cannotOpen true path e)

def openInput (path : Octets) : Shell (Except Octets Channel) := do
  let s ← get
  match s.disk.openRead s.cwd (Octets.toPath path) with
  | .ok (.data content) => return .ok (← addSource (Octets.ofContent content))
  | .ok .directory => return .ok (← addSource [])
  | .error e => return .error (cannotOpen false path e)

/-- Opens what a redirection asks for; `none` closes the descriptor. -/
def target (direction : Direction) (text : Octets) : Shell (Except Octets (Option Channel)) := do
  let s ← get
  match direction with
  | .here => return .ok (some (← addSource text))
  | .duplicate =>
    if text = ['-'] then return .ok none
    match text with
    | [d] =>
      if !d.isDigit then abandon "Syntax error: Bad fd number".toList
      match channel? s (d.toNat - 48) with
      | some c => return .ok (some c)
      | none => return .error (text ++ ": Bad file descriptor".toList)
    | _ => abandon "Syntax error: Bad fd number".toList
  | direction =>
    match device? s text with
    | some c => return .ok c
    | none =>
      match direction with
      | .read => return (← openInput text).map some
      | .both =>
        match ← openOutput false text with
        | .error message => return .error message
        | .ok _ => return (← openInput text).map some
      | .append => return (← openOutput false text).map some
      | _ => return (← openOutput true text).map some

/-- Changes the descriptors one after the other; whether all of them could be changed. -/
def redirectAll (run : Octets → Shell Unit) : List Redirect → Shell Bool
  | [] => return true
  | r :: rest => do
    let text ← single run r.target
    match ← target r.direction text with
    | .error message =>
      complain message
      return false
    | .ok c =>
      modify (setChannel r.descriptor c)
      redirectAll run rest

/-- Carries out an action and takes back a change of the state, however the action ends. -/
def restoring (restore : State → State → State) (action : Shell Unit) : Shell Unit := do
  let before ← get
  try
    action
    modify (restore before)
  catch i =>
    modify (restore before)
    throw i

/-- An action with other descriptors, or a failure if they cannot be changed. -/
def redirected (run : Octets → Shell Unit) (redirects : List Redirect)
    (onFailure action : Shell Unit) : Shell Unit :=
  if redirects.isEmpty then action
  else
    restoring (fun before after => { after with channels := before.channels }) do
      if ← redirectAll run redirects then action
      else
        setStatus 2
        onFailure

end LayerPack.Shell
