import LayerPack.Proofs.CommandLine.Requests

/-! The discipline of the run lock. A run opens the lock file, locks what it has opened, and works
until it gives the lock back; in between it locks and unlocks nothing else. This is read off the
requests and their answers alone, so it holds however the steps of other runs come in between. -/
namespace LayerPack

open Program Request

variable {α β : Type}

/-- How far a run has come with its lock. -/
inductive Hold where
  | none
  /-- The lock file is open, but not locked. -/
  | opened (file : Handle)
  | taken (file : Handle)
  deriving DecidableEq

/-- The lock is not about to be taken. -/
def Hold.Settled : Hold → Prop
  | none | taken _ => True
  | opened _ => False

/-- What a request and its answer make of it. -/
def Hold.next : Hold → (q : Request) → q.Reply → Hold
  | _, .openWrite false _, .ok file => opened file
  | opened file, .lock _, .ok _ => taken file
  | opened _, .lock _, .error _ => none
  | taken _, .unlock _, _ => none
  | hold, _, _ => hold

/-- What may be asked next, where `L` is the lock file and `K` the work. -/
def Hold.Allows (L : Path) (K : Request → Prop) : Hold → Request → Prop
  | none, q => q = .openWrite false L ∨ K q
  | opened file, q => q = .lock file
  | taken file, q => q = .unlock file ∨ K q

/-- The request opens a lock file, or it takes or gives back a lock. -/
def Request.isLocking : Request → Bool
  | .lock _ | .unlock _ | .openWrite false _ => true
  | _ => false

theorem Hold.next_of_not_locking {q : Request} (h : q.isLocking = false) (hold : Hold)
    (r : q.Reply) : hold.next q r = hold := by
  cases q with
  | lock | unlock => cases h
  | openWrite truncate p =>
    cases truncate with
    | false => cases h
    | true => cases hold <;> rfl
  | _ => cases hold <;> rfl

namespace Program

variable {L : Path} {K : Request → Prop} {Q : α → Hold → Prop} {hold : Hold}

/-- Every request is allowed, however those before it are answered, and what the result and the hold
are at the end. -/
def Follows (L : Path) (K : Request → Prop) (Q : α → Hold → Prop) : Hold → Program α → Prop
  | hold, done a => Q a hold
  | hold, ask q next => hold.Allows L K q ∧ ∀ r, (next r).Follows L K Q (hold.next q r)

theorem Follows.bind {R : β → Hold → Prop} {p : Program α} {f : α → Program β}
    (hp : p.Follows L K Q hold) (hf : ∀ a hold', Q a hold' → (f a).Follows L K R hold') :
    (p.bind f).Follows L K R hold := by
  induction p generalizing hold with
  | done a => exact hf a hold hp
  | ask q next ih => exact ⟨hp.1, fun r => ih r (hp.2 r)⟩

theorem Follows.mono {R : α → Hold → Prop} {p : Program α} (hp : p.Follows L K Q hold)
    (h : ∀ a hold', Q a hold' → R a hold') : p.Follows L K R hold := by
  induction p generalizing hold with
  | done a => exact h a hold hp
  | ask q next ih => exact ⟨hp.1, fun r => ih r (hp.2 r)⟩

/-- Work without locking changes nothing about the lock. -/
theorem Only.follows {p : Program α} (hp : p.Only K) (hK : ∀ q, K q → q.isLocking = false)
    (settled : hold.Settled) : p.Follows L K (fun _ hold' => hold' = hold) hold := by
  induction p with
  | done a => rfl
  | ask q next ih =>
    refine ⟨?_, fun r => ?_⟩
    · cases hold with
      | none => exact .inr hp.1
      | opened => exact settled.elim
      | taken => exact .inr hp.1
    · rw [Hold.next_of_not_locking (hK q hp.1)]
      exact ih r (hp.2 r)

end Program

namespace RunLock

variable {L : Path} {K : Request → Prop}

/-- The hold of a run after it has tried to take its lock. -/
def Tried : Except RunError RunLock → Hold → Prop
  | .ok held, hold => hold = .taken held.handle
  | .error _, hold => hold = .none

theorem take_follows (hL : ∀ level text, K (.log level text)) :
    (take L).Follows L K Tried .none := by
  refine ⟨.inl rfl, fun r => ?_⟩
  cases r with
  | error e => exact (rfl : Hold.none = Hold.none)
  | ok file =>
    refine ⟨rfl, fun r => ?_⟩
    cases r with
    | error e => exact (rfl : Hold.none = Hold.none)
    | ok => exact ⟨.inr (hL _ _), fun _ => rfl⟩

theorem acquire_follows (workspace : Path) (hK : ∀ q, K q → q.isLocking = false)
    (hL : ∀ level text, K (.log level text)) (hQ : ∀ q, Quiet q → K q) (hM : ∀ p, K (.mkdir p)) :
    (acquire workspace).Follows (pathFor workspace) K Tried .none := by
  unfold acquire
  dsimp only
  split
  · exact take_follows hL
  next up hup =>
    have made : (Files.makeDirs up).Only K := (Files.only_makeDirs up).mono fun q h =>
      h.elim (hQ q) fun ⟨p, _, h⟩ => h ▸ hM p
    have free : Hold.none.Settled := trivial
    refine (made.follows hK free).bind fun r hold hh => ?_
    obtain rfl := hh
    cases r with
    | error e => exact (rfl : Hold.none = Hold.none)
    | ok => exact take_follows hL

end RunLock

theorem Request.OfRun.not_locking {s : Settings} {q : Request} (h : q.OfRun s) :
    q.isLocking = false := by
  have quiet {q : Request} (h : q.Quiet) : q.isLocking = false := by
    cases q with
    | lock | unlock | openWrite => exact h.elim
    | _ => rfl
  cases h with
  | quiet h => exact quiet h
  | log | print | run | mkdir | unlink => rfl
  | removes h =>
    rcases h with h | rfl | rfl
    · exact quiet h
    · rfl
    · rfl
  | archives fresh h =>
    rcases h with h | ⟨handle, bytes, rfl⟩ | rfl | rfl | rfl
    · exact quiet h
    all_goals rfl

namespace Args

variable (t : Terminal) (s : Settings) (python : Path)

/-- A run takes the lock of its workspace, works, and gives the lock back. -/
theorem lockAndRun_follows : (lockAndRun t s python).run.Follows (RunLock.pathFor s.workspace)
    (OfRun s) (fun _ hold => hold = .none) .none := by
  refine Follows.bind (p := RunLock.acquire s.workspace) (RunLock.acquire_follows s.workspace
    (fun _ => OfRun.not_locking) .log (fun _ => .quiet) .mkdir) fun r hold tried => ?_
  cases r with
  | error e => exact tried
  | ok lock =>
    obtain rfl : hold = .taken lock.handle := tried
    refine Follows.bind ((only_runLocked t s python lock).follows (fun _ => OfRun.not_locking)
      trivial) fun result hold' hh => ?_
    obtain rfl := hh
    exact ⟨.inl rfl, fun _ => rfl⟩

end Args

end LayerPack
