import LayerPack.Host.Program

/-! Which requests a program can make, and what a run of it leaves. A set of requests that is
closed under the combinators of programs and works is found once for each program, whatever the
answers are. What every request of the set keeps, a run of the program keeps. -/
namespace LayerPack

namespace Program

variable {α β σ : Type} {K L : Request → Prop}

/-- Every request that the program can make is in `K`, however those before it are answered. -/
def Only (K : Request → Prop) : Program α → Prop
  | done _ => True
  | ask q next => K q ∧ ∀ r, (next r).Only K

@[simp] theorem only_done (a : α) : (done a).Only K := trivial

@[simp] theorem only_pure (a : α) : (pure a : Program α).Only K := trivial

@[simp] theorem only_request {q : Request} : (request q).Only K ↔ K q := by
  simp [request, Only]

theorem Only.bind {p : Program α} {f : α → Program β} (hp : p.Only K) (hf : ∀ a, (f a).Only K) :
    (p >>= f).Only K := by
  change (p.bind f).Only K
  induction p with
  | done a => exact hf a
  | ask q next ih => exact ⟨hp.1, fun r => ih r (hp.2 r)⟩

theorem Only.mono {p : Program α} (hp : p.Only K) (hKL : ∀ q, K q → L q) : p.Only L := by
  induction p with
  | done a => trivial
  | ask q next ih => exact ⟨hKL q hp.1, fun r => ih r (hp.2 r)⟩

theorem Only.trace {p : Program α} (hp : p.Only K) (answer : Answers σ) (s : σ) :
    ∀ e ∈ p.trace answer s, K e.1 := by
  induction p generalizing s with
  | done a => intro e he; cases he
  | ask q next ih =>
    intro e he
    rcases List.mem_cons.mp he with rfl | he
    · exact hp.1
    · exact ih _ (hp.2 _) _ e he

/-- What holds between the states before and after every single answer holds between the ends of a
run. -/
theorem Only.run_rel {p : Program α} (hp : p.Only K) {answer : Answers σ} {R : σ → σ → Prop}
    (refl : ∀ s, R s s) (trans : ∀ {s t u}, R s t → R t u → R s u)
    (step : ∀ q s, K q → R s (answer q s).2) (s : σ) : R s (p.run answer s).2 := by
  induction p generalizing s with
  | done a => exact refl s
  | ask q next ih => exact trans (step q s hp.1) (ih _ (hp.2 _) _)

/-- What every single answer keeps, a run keeps. -/
theorem Only.run_inv {p : Program α} (hp : p.Only K) {answer : Answers σ} {I : σ → Prop}
    (step : ∀ q s, K q → I s → I (answer q s).2) {s : σ} (hs : I s) : I (p.run answer s).2 := by
  induction p generalizing s with
  | done a => exact hs
  | ask q next ih => exact ih _ (hp.2 _) (step q s hp.1 hs)

/-- What every single answer adds to a history, a run adds to it. -/
theorem Only.run_history {p : Program α} (hp : p.Only K) {answer : Answers σ}
    {H : σ → List (Request × σ) → σ → Prop} (nil : ∀ s, H s [] s)
    (cons : ∀ q s es t, K q → H (answer q s).2 es t → H s ((q, s) :: es) t) (s : σ) :
    H s (p.trace answer s) (p.run answer s).2 := by
  induction p generalizing s with
  | done a => exact nil s
  | ask q next ih => exact cons q s _ _ hp.1 (ih _ (hp.2 _) _)

/-- Every result that the program can have is in `P`, however it is answered. -/
def Returns (P : α → Prop) : Program α → Prop
  | done a => P a
  | ask _ next => ∀ r, (next r).Returns P

theorem Returns.bind {P : α → Prop} {Q : β → Prop} {p : Program α} {f : α → Program β}
    (hp : p.Returns P) (hf : ∀ a, P a → (f a).Returns Q) : (p.bind f).Returns Q := by
  induction p with
  | done a => exact hf a hp
  | ask q next ih => exact fun r => ih r (hp r)

theorem Returns.mono {P Q : α → Prop} {p : Program α} (hp : p.Returns P) (h : ∀ a, P a → Q a) :
    p.Returns Q := by
  induction p with
  | done a => exact h a hp
  | ask q next ih => exact fun r => ih r (hp r)

theorem Returns.and {P Q : α → Prop} {p : Program α} (h : p.Returns P) (h' : p.Returns Q) :
    p.Returns fun a => P a ∧ Q a := by
  induction p with
  | done a => exact ⟨h, h'⟩
  | ask q next ih => exact fun r => ih r (h r) (h' r)

theorem returns_true (p : Program α) : p.Returns fun _ => True := by
  induction p with
  | done a => trivial
  | ask q next ih => exact ih

theorem Returns.run {P : α → Prop} {p : Program α} (hp : p.Returns P) (answer : Answers σ)
    (s : σ) : P (p.run answer s).1 := by
  induction p generalizing s with
  | done a => exact hp
  | ask q next ih => exact ih _ (hp _) _

/-- What is found at the end of a run: its result, the requests that it made, each with the state
before it, and the last state. -/
def Ends (answer : Answers σ) (p : Program α) (s : σ)
    (Q : α → List (Request × σ) → σ → Prop) : Prop :=
  Q (p.run answer s).1 (p.trace answer s) (p.run answer s).2

theorem Returns.ends {P : α → Prop} {p : Program α} (hp : p.Returns P) {answer : Answers σ} {s : σ} :
    p.Ends answer s fun a _ _ => P a := hp.run answer s

/-- What follows has to be found only for the results that there can be. -/
theorem Only.bind_returns {P : α → Prop} {p : Program α} {f : α → Program β} (hp : p.Only K)
    (hr : p.Returns P) (hf : ∀ a, P a → (f a).Only K) : (p >>= f).Only K := by
  change (p.bind f).Only K
  induction p with
  | done a => exact hf a hr
  | ask q next ih => exact ⟨hp.1, fun r => ih r (hp.2 r) (hr r)⟩

variable {answer : Answers σ} {s : σ} {Q : β → List (Request × σ) → σ → Prop}

@[simp] theorem ends_done {b : β} : (done b).Ends answer s Q ↔ Q b [] s := Iff.rfl

theorem Only.ends {p : Program β} (hp : p.Only K) :
    p.Ends answer s fun _ es _ => ∀ e ∈ es, K e.1 := hp.trace answer s

theorem ends_ask {q : Request} {next : q.Reply → Program β} : (ask q next).Ends answer s Q ↔
    (next (answer q s).1).Ends answer (answer q s).2 fun b es s' => Q b ((q, s) :: es) s' := Iff.rfl

theorem ends_request {q : Request} {Q : q.Reply → List (Request × σ) → σ → Prop} :
    (request q).Ends answer s Q ↔ Q (answer q s).1 [(q, s)] (answer q s).2 := Iff.rfl

theorem ends_bind {p : Program α} {f : α → Program β} :
    (p.bind f).Ends answer s Q ↔
      p.Ends answer s fun a es s' => (f a).Ends answer s' fun b es' s'' => Q b (es ++ es') s'' := by
  simp only [Ends, run_bind, trace_bind]

theorem Ends.mono {p : Program β} {Q' : β → List (Request × σ) → σ → Prop}
    (h : p.Ends answer s Q) (hpost : ∀ a es s', Q a es s' → Q' a es s') :
    p.Ends answer s Q' := hpost _ _ _ h

theorem Ends.and {p : Program β} {Q' : β → List (Request × σ) → σ → Prop}
    (h : p.Ends answer s Q) (h' : p.Ends answer s Q') :
    p.Ends answer s fun a es s' => Q a es s' ∧ Q' a es s' := ⟨h, h'⟩

/-- Answers that agree on all that is asked in a run leave the same. -/
theorem Ends.congr {p : Program β} {answer' : Answers σ} (h : p.Ends answer' s Q)
    (agree : ∀ e ∈ p.trace answer s, answer' e.1 e.2 = answer e.1 e.2) : p.Ends answer s Q := by
  induction p generalizing s Q with
  | done b => exact h
  | ask q next ih =>
    have first : answer' q s = answer q s := agree (q, s) List.mem_cons_self
    change (next (answer' q s).1).Ends answer' (answer' q s).2
      fun b es s' => Q b ((q, s) :: es) s' at h
    rw [first] at h
    exact ih (answer q s).1 h fun e he => agree e (List.mem_cons_of_mem _ he)

/-- To run two programs in a row, run the first and go on from what it leaves. -/
theorem Ends.bind {p : Program α} {f : α → Program β}
    {M : α → List (Request × σ) → σ → Prop} (hp : p.Ends answer s M)
    (hf : ∀ a es s', M a es s' →
      (f a).Ends answer s' fun b es' s'' => Q b (es ++ es') s'') :
    (p.bind f).Ends answer s Q :=
  ends_bind.mpr (hp.mono hf)

end Program

namespace Work

open Program

variable {α β : Type} {K L : Request → Prop}

/-- Every request of the work is in `K`, under every deadline. -/
def Only (K : Request → Prop) (w : Work α) : Prop := ∀ deadline, (w deadline).Only K

theorem Only.mono {w : Work α} (hw : w.Only K) (hKL : ∀ q, K q → L q) : w.Only L :=
  fun deadline => (hw deadline).mono hKL

@[simp] theorem only_pure (a : α) : Only K (pure a : Work α) := fun _ => trivial

@[simp] theorem only_fail (e : Error) : Only K (fail e : Work α) := fun _ => trivial

@[simp] theorem only_ofExcept (r : Except Error α) : Only K (ofExcept r) := by
  cases r <;> exact fun _ => trivial

@[simp] theorem only_failIf (wrong : Bool) (e : Error) : Only K (failIf wrong e) := by
  cases wrong
  · exact only_pure ()
  · exact only_fail e

theorem Only.bind {w : Work α} {f : α → Work β} (hw : w.Only K) (hf : ∀ a, (f a).Only K) :
    Only K (w >>= f) := fun deadline =>
  (hw deadline).bind fun
    | .ok a => hf a deadline
    | .error _ => trivial

theorem Only.now {p : Program α} (hp : p.Only K) : Only K (now p) := fun _ =>
  hp.bind fun _ => trivial

theorem only_isLate (hK : K .clock) (deadline : Option Nat) : (isLate deadline).Only K := by
  cases deadline with
  | none => trivial
  | some limit => exact ⟨hK, fun _ => trivial⟩

theorem Only.await {p : Program α} (hK : K .clock) (hp : p.Only K) : Only K (await p) :=
  fun deadline => (only_isLate hK deadline).bind fun
    | true => trivial
    | false => hp.bind fun _ => (only_isLate hK deadline).bind fun
      | true => trivial
      | false => trivial

theorem Only.mapError {w : Work α} (hw : w.Only K) (f : Error → Error) : Only K (w.mapError f) :=
  fun deadline => (hw deadline).bind fun r => by
    cases r with
    | ok a => trivial
    | error stop => cases stop <;> trivial

theorem Only.onStop {w : Work α} {p : Program Unit} (hw : w.Only K) (hp : p.Only K) :
    Only K (w.onStop p) := fun deadline =>
  (hw deadline).bind fun
    | .ok _ => trivial
    | .error _ => hp.bind fun _ => trivial

/-- Every result of the work is in `P` if it succeeds. -/
def Yields (P : α → Prop) (w : Work α) : Prop :=
  ∀ deadline, (w deadline).Returns fun r => ∀ a, r = .ok a → P a

theorem yields_pure {P : α → Prop} {a : α} (h : P a) : Yields P (pure a : Work α) :=
  fun _ _ hb => by
    cases hb
    exact h

theorem Yields.bind {P : α → Prop} {Q : β → Prop} {w : Work α} {f : α → Work β}
    (hw : w.Yields P) (hf : ∀ a, P a → (f a).Yields Q) : Yields Q (w >>= f) := fun deadline =>
  Returns.bind (hw deadline) fun r hr => by
    cases r with
    | ok a => exact hf a (hr a rfl) deadline
    | error stop => exact fun _ h => by cases h

theorem yields_ofExcept {P : α → Prop} {r : Except Error α} (h : ∀ a, r = .ok a → P a) :
    Yields P (ofExcept r) := by
  cases r with
  | ok a => exact yields_pure (h a rfl)
  | error cause => exact fun _ _ h => by cases h

theorem yields_true (w : Work α) : w.Yields fun _ => True := fun deadline => by
  rw [← bind_done (w deadline)]
  exact (returns_true _).bind fun _ _ _ _ => trivial

theorem Yields.now {P : α → Prop} {p : Program α} (hp : p.Returns P) : Yields P (now p) := fun _ =>
  hp.bind fun _ ha _ h => by
    cases h
    exact ha

/-- What is waited for has the results that it has without the wait. -/
theorem Yields.await {P : α → Prop} {p : Program α} (hp : p.Returns P) : Yields P (await p) :=
  fun deadline => (returns_true (isLate deadline)).bind fun before _ => by
    cases before with
    | true => exact fun _ h => by cases h
    | false =>
      refine hp.bind fun a ha => (returns_true (isLate deadline)).bind fun after _ => ?_
      cases after with
      | true => exact fun _ h => by cases h
      | false =>
        rintro _ ⟨⟩
        exact ha

/-- Every failure of the work has a cause in `P`, and it is late only under a deadline. -/
def Fails (P : Error → Prop) (w : Work α) : Prop :=
  ∀ deadline, (w deadline).Returns fun r => ∀ stop, r = .error stop →
    (stop = .late ∧ deadline ≠ none) ∨ ∃ cause, stop = .failed cause ∧ P cause

section Fails

variable {P : Error → Prop} {w : Work α} {f : α → Work β}

theorem fails_pure (a : α) : Fails P (pure a : Work α) := fun _ _ h => by cases h

theorem fails_now (p : Program α) : Fails P (now p) := fun _ =>
  (returns_true p).bind fun _ _ _ h => by cases h

theorem fails_fail {cause : Error} (h : P cause) : Fails P (fail cause : Work α) := fun _ _ he => by
  cases he
  exact .inr ⟨cause, rfl, h⟩

theorem fails_ofExcept {r : Except Error α} (h : ∀ cause, r = .error cause → P cause) :
    Fails P (ofExcept r) := by
  cases r with
  | ok a => exact fails_pure a
  | error cause => exact fails_fail (h cause rfl)

theorem fails_mapError {ε : Type} {r : Except ε α} {g : ε → Error} (h : ∀ e, P (g e)) :
    Fails P (ofExcept (r.mapError g)) := fails_ofExcept fun cause hr => by
  cases r with
  | ok a => cases hr
  | error e =>
    cases hr
    exact h e

theorem fails_failIf {wrong : Bool} {cause : Error} (h : P cause) : Fails P (failIf wrong cause) := by
  cases wrong with
  | false => exact fails_pure ()
  | true => exact fails_fail h

/-- Only a deadline can cut off what is waited for. -/
theorem fails_await (p : Program α) : Fails P (await p) := fun deadline => by
  have clock : (isLate deadline).Returns fun late => late = true → deadline ≠ none := by
    cases deadline with
    | none => exact fun h => by cases h
    | some limit => exact fun _ _ => by simp
  have late (h : deadline ≠ none) (stop : Stop) (he : (.error .late : Except Stop α) = .error stop) :
      (stop = .late ∧ deadline ≠ none) ∨ ∃ cause, stop = .failed cause ∧ P cause := by
    cases he
    exact .inl ⟨rfl, h⟩
  refine clock.bind fun before hb => ?_
  cases before with
  | true => exact late (hb rfl)
  | false =>
    refine (returns_true p).bind fun a _ => clock.bind fun after ha => ?_
    cases after with
    | true => exact late (ha rfl)
    | false => exact fun _ h => by cases h

theorem Fails.bind (hw : w.Fails P) (hf : ∀ a, (f a).Fails P) : Fails P (w >>= f) := fun deadline =>
  Returns.bind (hw deadline) fun r hr => by
    cases r with
    | ok a => exact hf a deadline
    | error stop =>
      rintro _ ⟨⟩
      exact hr stop rfl

/-- What follows has to be looked at only for the results that there can be. -/
theorem Fails.bind_yields {Q : α → Prop} (hw : w.Fails P) (hy : w.Yields Q)
    (hf : ∀ a, Q a → (f a).Fails P) : Fails P (w >>= f) := fun deadline =>
  Returns.bind ((hw deadline).and (hy deadline)) fun r ⟨hr, ha⟩ => by
    cases r with
    | ok a => exact hf a (ha a rfl) deadline
    | error stop =>
      rintro _ ⟨⟩
      exact hr stop rfl

theorem Fails.onStop (hw : w.Fails P) (p : Program Unit) : Fails P (w.onStop p) := fun deadline =>
  Returns.bind (hw deadline) fun r hr => by
    cases r with
    | ok a => exact fun _ h => by cases h
    | error stop => exact (returns_true p).bind fun _ _ => hr

theorem Fails.ends {σ : Type} {answer : Answers σ} {s : σ} (hw : w.Fails P) {deadline : Option Nat} :
    (w deadline).Ends answer s fun r _ _ => ∀ stop, r = .error stop →
      (stop = .late ∧ deadline ≠ none) ∨ ∃ cause, stop = .failed cause ∧ P cause :=
  (hw deadline).run answer s

end Fails

variable {σ : Type} {answer : Answers σ} {s : σ} {deadline : Option Nat}

/-- What follows a work runs only if it has succeeded. -/
theorem ends_bind {w : Work α} {f : α → Work β}
    {Q : Except Stop β → List (Request × σ) → σ → Prop} :
    ((w >>= f) deadline).Ends answer s Q ↔
      (w deadline).Ends answer s fun r es s' => match r with
        | .ok a => (f a deadline).Ends answer s' fun r' es' s'' => Q r' (es ++ es') s''
        | .error stop => Q (.error stop) es s' := by
  change ((w deadline).bind _).Ends answer s Q ↔ _
  rw [Program.ends_bind]
  unfold Program.Ends
  rcases (w deadline).run answer s with ⟨r, s'⟩
  cases r with
  | ok a => exact Iff.rfl
  | error stop => simp [Program.run, Program.trace]

theorem Yields.ends {P : α → Prop} {w : Work α} (hw : w.Yields P) {deadline : Option Nat} :
    (w deadline).Ends answer s fun r _ _ => ∀ a, r = .ok a → P a := (hw deadline).run answer s

theorem ends_now {p : Program α} {Q : Except Stop α → List (Request × σ) → σ → Prop} :
    (now p deadline).Ends answer s Q ↔ p.Ends answer s fun a es s' => Q (.ok a) es s' := by
  change (p.bind _).Ends answer s Q ↔ _
  rw [Program.ends_bind]
  simp [Program.Ends, Program.run, Program.trace]

theorem ends_mapError {w : Work α} {f : Error → Error}
    {Q : Except Stop α → List (Request × σ) → σ → Prop} :
    (w.mapError f deadline).Ends answer s Q ↔
      (w deadline).Ends answer s fun r es s' => match r with
        | .error (.failed cause) => Q (.error (.failed (f cause))) es s'
        | r => Q r es s' := by
  change ((w deadline).bind _).Ends answer s Q ↔ _
  rw [Program.ends_bind]
  unfold Program.Ends
  rcases (w deadline).run answer s with ⟨r, s'⟩
  rcases r with (_ | _) | _ <;> simp [Program.run, Program.trace]

theorem ends_ofExcept {r : Except Error α}
    {Q : Except Stop α → List (Request × σ) → σ → Prop} :
    (ofExcept r deadline).Ends answer s Q ↔ Q (r.mapError .failed) [] s := by
  cases r <;> exact Iff.rfl

theorem ends_failIf {wrong : Bool} {e : Error}
    {Q : Except Stop Unit → List (Request × σ) → σ → Prop} :
    (failIf wrong e deadline).Ends answer s Q ↔
      Q (if wrong then .error (.failed e) else .ok ()) [] s := by
  cases wrong <;> exact Iff.rfl

/-- What is done on a stop comes after it and does not change the outcome. -/
theorem ends_onStop {w : Work α} {p : Program Unit}
    {Q : Except Stop α → List (Request × σ) → σ → Prop} :
    (w.onStop p deadline).Ends answer s Q ↔
      (w deadline).Ends answer s fun r es s' => match r with
        | .ok a => Q (.ok a) es s'
        | .error stop => p.Ends answer s' fun _ es' s'' => Q (.error stop) (es ++ es') s'' := by
  change ((w deadline).bind _).Ends answer s Q ↔ _
  rw [Program.ends_bind]
  unfold Program.Ends
  rcases (w deadline).run answer s with ⟨r, s'⟩
  cases r with
  | ok a => simp [Program.run, Program.trace]
  | error stop => simp [run_bind, trace_bind, Program.run, Program.trace]

end Work

end LayerPack
