import LayerPack.Proofs.Program.Requests

/-! Two runs side by side. They start from states that are related, each goes its own way, and at their ends
their results and states are compared; on the way they have done the same, as far as others can tell.
Most programs agree with themselves: run from related states they have the same result and leave related
states, and that is kept by the combinators of programs and works. -/
namespace LayerPack

/-- What others can tell of a run: whom it called, and what it wrote. -/
inductive Deed where
  | called (call : Call)
  | wrote (bytes : ByteArray)

def Request.deed? : Request → Option Deed
  | collaborate call _ => some (.called call)
  | append _ bytes => some (.wrote bytes)
  | _ => none

section

variable {σ : Type}

/-- The deeds among requests, in their order. -/
def deedsOf (es : List (Request × σ)) : List Deed := es.filterMap (·.1.deed?)

@[simp] theorem deedsOf_nil : deedsOf ([] : List (Request × σ)) = [] := rfl

@[simp] theorem deedsOf_append (es es' : List (Request × σ)) :
    deedsOf (es ++ es') = deedsOf es ++ deedsOf es' := List.filterMap_append

end

/-- Both fail, with errors that are related, or both succeed, with results that are related. -/
inductive Paired {ε ε' α β : Type} (E : ε → ε' → Prop) (S : α → β → Prop) :
    Except ε α → Except ε' β → Prop
  | error {e : ε} {e' : ε'} (h : E e e') : Paired E S (.error e) (.error e')
  | ok {a : α} {b : β} (h : S a b) : Paired E S (.ok a) (.ok b)

namespace Program

variable {α β γ δ σ : Type} {answer : Answers σ} {fair : Request × σ → Prop} {R R' : σ → σ → Prop}

/-- Two programs are run from related states; what is found at their ends is in `Q`. -/
def Sides (answer : Answers σ) (R : σ → σ → Prop) (p : Program α) (p' : Program β)
    (Q : α → List (Request × σ) → σ → β → List (Request × σ) → σ → Prop) : Prop :=
  ∀ s s', R s s' → p.Ends answer s fun a es t => p'.Ends answer s' fun b es' t' =>
    Q a es t b es' t'

theorem Sides.bind {p : Program α} {p' : Program β} {f : α → Program γ} {f' : β → Program δ}
    {M : α → List (Request × σ) → σ → β → List (Request × σ) → σ → Prop}
    {Q : γ → List (Request × σ) → σ → δ → List (Request × σ) → σ → Prop}
    (h : p.Sides answer R p' M)
    (hf : ∀ a es b es', (f a).Sides answer (fun t t' => M a es t b es' t') (f' b)
      fun c fs u d fs' u' => Q c (es ++ fs) u d (es' ++ fs') u') :
    (p.bind f).Sides answer R (p'.bind f') Q := by
  intro s s' hs
  unfold Ends
  rw [run_bind, trace_bind, run_bind, trace_bind]
  exact hf _ _ _ _ _ _ (h s s' hs)

/-- From related states two programs do the same, and what they end with is in `Q`, provided that all
the requests of both have been answered fairly. -/
def Abreast (answer : Answers σ) (fair : Request × σ → Prop) (R : σ → σ → Prop) (p : Program α)
    (p' : Program β) (Q : α → σ → β → σ → Prop) : Prop :=
  p.Sides answer R p' fun a es t b es' t' =>
    (∀ e ∈ es ++ es', fair e) → deedsOf es = deedsOf es' ∧ Q a t b t'

section

variable {p : Program α} {p' : Program β} {Q Q' : α → σ → β → σ → Prop}

theorem Abreast.mono (h : p.Abreast answer fair R p' Q)
    (hpost : ∀ a t b t', Q a t b t' → Q' a t b t') : p.Abreast answer fair R p' Q' :=
  fun s s' hs hf => (h s s' hs hf).imp_right (hpost _ _ _ _)

theorem Abreast.pre (h : p.Abreast answer fair R' p' Q) (hpre : ∀ s s', R s s' → R' s s') :
    p.Abreast answer fair R p' Q := fun s s' hs => h s s' (hpre s s' hs)

theorem abreast_done {a : α} {b : β} (h : ∀ s s', R s s' → Q a s b s') :
    (done a).Abreast answer fair R (done b) Q := fun s s' hs _ => ⟨rfl, h s s' hs⟩

theorem abreast_asked {q q' : Request} {Q : q.Reply → σ → q'.Reply → σ → Prop}
    (hd : q.deed? = q'.deed?) (h : ∀ s s', R s s' → fair (q, s) → fair (q', s') →
      Q (answer q s).1 (answer q s).2 (answer q' s').1 (answer q' s').2) :
    (request q).Abreast answer fair R (request q') Q := by
  intro s s' hs fairly
  refine ⟨?_, h s s' hs (fairly (q, s) ?_) (fairly (q', s') ?_)⟩
  · change List.filterMap (·.1.deed?) [(q, s)] = List.filterMap (·.1.deed?) [(q', s')]
    simp only [List.filterMap_cons, hd]
  · exact List.mem_cons_self
  · exact List.mem_cons_of_mem _ List.mem_cons_self

/-- Requests that have the same effect on others, however they are answered. -/
theorem abreast_request {q q' : Request} {Q : q.Reply → σ → q'.Reply → σ → Prop}
    (hd : q.deed? = q'.deed?) (h : ∀ s s', R s s' → Q (answer q s).1 (answer q s).2
      (answer q' s').1 (answer q' s').2) : (request q).Abreast answer fair R (request q') Q :=
  abreast_asked hd fun s s' hs _ _ => h s s' hs

theorem Abreast.bind {f : α → Program γ} {f' : β → Program δ} {M : α → σ → β → σ → Prop}
    {Q : γ → σ → δ → σ → Prop} (h : p.Abreast answer fair R p' M)
    (hf : ∀ a b, (f a).Abreast answer fair (fun t t' => M a t b t') (f' b) Q) :
    (p.bind f).Abreast answer fair R (p'.bind f') Q := by
  refine Sides.bind h fun a es b es' s s' first fairly => ?_
  obtain ⟨deeds, hM⟩ := first fun e he => fairly e (by
    rcases List.mem_append.mp he with he | he <;> simp [he])
  obtain ⟨deeds', post⟩ := hf a b s s' hM fun e he => fairly e (by
    rcases List.mem_append.mp he with he | he <;> simp [he])
  refine ⟨?_, post⟩
  rw [deedsOf_append, deedsOf_append, deeds, deeds']

/-- What follows requests that others take for the same, on two states that are given. -/
theorem Abreast.after {q q' : Request} {f : q.Reply → Program γ} {f' : q'.Reply → Program δ}
    {Q : γ → σ → δ → σ → Prop} {s s' : σ} (hd : q.deed? = q'.deed?)
    (h : (f (answer q s).1).Abreast answer fair
      (fun t t' => t = (answer q s).2 ∧ t' = (answer q' s').2) (f' (answer q' s').1) Q) :
    ((request q).bind f).Abreast answer fair (fun t t' => t = s ∧ t' = s')
      ((request q').bind f') Q := by
  refine Abreast.bind (M := fun a t b t' => (a = (answer q s).1 ∧ b = (answer q' s').1) ∧
    t = (answer q s).2 ∧ t' = (answer q' s').2) (abreast_request hd ?_) fun a b => ?_
  · rintro _ _ ⟨rfl, rfl⟩
    exact ⟨⟨rfl, rfl⟩, rfl, rfl⟩
  · rintro t t' ⟨⟨rfl, rfl⟩, ends⟩
    exact h t t' ends

/-- What is found of each of the two runs alone is added. -/
theorem Abreast.ends {U : α → σ → Prop} {U' : β → σ → Prop} (h : p.Abreast answer fair R p' Q)
    (hu : ∀ s s', R s s' → p.Ends answer s (fun a _ t => U a t) ∧
      p'.Ends answer s' fun b _ t => U' b t) :
    p.Abreast answer fair R p' fun a t b t' => Q a t b t' ∧ U a t ∧ U' b t' :=
  fun s s' hs fairly => (h s s' hs fairly).imp_right fun post => ⟨post, hu s s' hs⟩

end

section Foreseen

variable {p : Program α} {p' : Program β} {M : α → σ → β → σ → Prop} {Q : γ → σ → δ → σ → Prop}

/-- Of two related states, and the first run ends as is known in advance. -/
def Foreseen (answer : Answers σ) (R : σ → σ → Prop) (p : Program α) (U : α → σ → Prop) (s s' : σ) :
    Prop := R s s' ∧ p.Ends answer s fun a _ t => U a t

theorem Abreast.unforeseen {U : α → σ → Prop} {Q : α → σ → β → σ → Prop}
    (h : p.Abreast answer fair R p' Q) : p.Abreast answer fair (Foreseen answer R p U) p' Q :=
  h.pre fun _ _ h => h.1

/-- What is known of the end of a run is known of its parts. -/
theorem Abreast.bind_foreseen {f : α → Program γ} {f' : β → Program δ} {U : γ → σ → Prop}
    (h : p.Abreast answer fair
      (Foreseen answer R p fun a t => (f a).Ends answer t fun c _ u => U c u) p' M)
    (hf : ∀ a b, (f a).Abreast answer fair (Foreseen answer (fun t t' => M a t b t') (f a) U)
      (f' b) Q) :
    (p.bind f).Abreast answer fair (Foreseen answer R (p.bind f) U) (p'.bind f') Q := by
  rintro s s' ⟨hs, known⟩
  have known := ends_bind.mp known
  have first : p.Abreast answer fair (fun t t' => t = s ∧ t' = s') p' fun a t b t' =>
      M a t b t' ∧ (f a).Ends answer t fun c _ u => U c u := by
    rintro _ _ ⟨rfl, rfl⟩ fairly
    exact (h _ _ ⟨hs, known⟩ fairly).imp_right fun hM => ⟨hM, known⟩
  exact Abreast.bind first hf s s' ⟨rfl, rfl⟩

end Foreseen

/-- From related states a program has the same result, and it leaves related states. -/
def Agrees (answer : Answers σ) (fair : Request × σ → Prop) (R : σ → σ → Prop)
    (p : Program α) : Prop :=
  p.Abreast answer fair R p fun a t b t' => a = b ∧ R t t'

theorem agrees_done (a : α) : (done a).Agrees answer fair R := abreast_done fun _ _ hs => ⟨rfl, hs⟩

theorem Agrees.bind {p : Program α} {f : α → Program β} (hp : p.Agrees answer fair R)
    (hf : ∀ a, (f a).Agrees answer fair R) : (p >>= f).Agrees answer fair R := by
  refine Abreast.bind hp fun a b => ?_
  rintro s s' ⟨rfl, hs⟩
  exact hf a s s' hs

end Program

namespace Work

open Program

variable {α β σ : Type} {answer : Answers σ} {fair : Request × σ → Prop} {R : σ → σ → Prop}
  {due : Option Nat → Option Nat → Prop}

/-- From related states and under corresponding deadlines, work has the same outcome and leaves
related states. -/
def Agrees (answer : Answers σ) (fair : Request × σ → Prop) (R : σ → σ → Prop)
    (due : Option Nat → Option Nat → Prop) (w : Work α) : Prop :=
  ∀ deadline deadline', due deadline deadline' → (w deadline).Abreast answer fair R (w deadline')
    fun a t b t' => a = b ∧ R t t'

theorem agrees_pure (a : α) : Agrees answer fair R due (pure a : Work α) :=
  fun _ _ _ => Program.agrees_done _

theorem agrees_fail (e : Error) : Agrees answer fair R due (fail e : Work α) :=
  fun _ _ _ => Program.agrees_done _

theorem agrees_ofExcept (r : Except Error α) : Agrees answer fair R due (ofExcept r) := by
  cases r with
  | ok a => exact agrees_pure a
  | error e => exact agrees_fail e

theorem agrees_failIf (wrong : Bool) (e : Error) : Agrees answer fair R due (failIf wrong e) := by
  cases wrong with
  | true => exact agrees_fail e
  | false => exact agrees_pure ()

theorem Agrees.bind {w : Work α} {f : α → Work β} (hw : w.Agrees answer fair R due)
    (hf : ∀ a, (f a).Agrees answer fair R due) : (w >>= f).Agrees answer fair R due := by
  intro deadline deadline' hd
  refine Abreast.bind (hw deadline deadline' hd) fun a b => ?_
  rintro s s' ⟨rfl, hs⟩
  cases a with
  | ok a => exact hf a deadline deadline' hd s s' hs
  | error stop => exact agrees_done _ s s' hs

/-- Work whose first run is known to succeed succeeds part by part. -/
theorem abreast_bind {γ δ : Type} {w : Work α} {w' : Work β} {f : α → Work γ} {f' : β → Work δ}
    {M : α → σ → β → σ → Prop} {Q : Except Stop γ → σ → Except Stop δ → σ → Prop}
    {U : Except Stop γ → σ → Prop} (succeeds : ∀ stop t, ¬ U (.error stop) t)
    {deadline deadline' : Option Nat}
    (h : (w deadline).Abreast answer fair (Foreseen answer R (w deadline) fun r t =>
        ∃ a, r = .ok a ∧ (f a deadline).Ends answer t fun c _ u => U c u) (w' deadline')
      fun r t r' t' => ∀ a, r = .ok a → ∃ b, r' = .ok b ∧ M a t b t')
    (hf : ∀ a b, (f a deadline).Abreast answer fair
      (Foreseen answer (fun t t' => M a t b t') (f a deadline) U) (f' b deadline') Q) :
    ((w >>= f) deadline).Abreast answer fair (Foreseen answer R ((w >>= f) deadline) U)
      ((w' >>= f') deadline') Q := by
  refine Abreast.bind_foreseen
    (M := fun r t r' t' => ∃ a b, r = .ok a ∧ r' = .ok b ∧ M a t b t') ?_ fun r r' => ?_
  · rintro s s' ⟨hs, known⟩ fairly
    have known : (w deadline).Ends answer s fun r _ t =>
        ∃ a, r = .ok a ∧ (f a deadline).Ends answer t fun c _ u => U c u := by
      refine Ends.mono known fun r es t later => ?_
      cases r with
      | ok a => exact ⟨a, rfl, later⟩
      | error stop => exact (succeeds stop t later).elim
    obtain ⟨deeds, post⟩ := h s s' ⟨hs, known⟩ fairly
    obtain ⟨a, ha, -⟩ := known
    obtain ⟨b, hb, hM⟩ := post a ha
    exact ⟨deeds, a, b, ha, hb, hM⟩
  · rintro s s' ⟨⟨a, b, rfl, rfl, hM⟩, known⟩
    exact hf a b s s' ⟨hM, known⟩

/-- The deadlines strike together. -/
def Prompt (answer : Answers σ) (fair : Request × σ → Prop) (R : σ → σ → Prop)
    (due : Option Nat → Option Nat → Prop) : Prop :=
  ∀ deadline deadline', due deadline deadline' →
    (isLate deadline).Abreast answer fair R (isLate deadline') fun a t b t' => a = b ∧ R t t'

theorem Agrees.mapError {w : Work α} (hw : w.Agrees answer fair R due) (f : Error → Error) :
    (w.mapError f).Agrees answer fair R due := by
  intro deadline deadline' hd
  refine Abreast.bind (hw deadline deadline' hd) fun a b => ?_
  rintro s s' ⟨rfl, hs⟩
  rcases a with (cause | _) | a
  · exact agrees_done _ s s' hs
  · exact agrees_done _ s s' hs
  · exact agrees_done _ s s' hs

end Work

namespace Program

variable {α β σ : Type} {answer : Answers σ} {fair : Request × σ → Prop} {R : σ → σ → Prop}
  {due : Option Nat → Option Nat → Prop} {p : Program α}

theorem Agrees.now (hp : p.Agrees answer fair R) : (Work.now p).Agrees answer fair R due :=
  fun _ _ _ => hp.bind fun a => agrees_done (Except.ok a)

theorem Abreast.now {p' : Program β} {M : α → σ → β → σ → Prop} (hp : p.Abreast answer fair R p' M)
    (deadline deadline' : Option Nat) :
    (Work.now p deadline).Abreast answer fair R (Work.now p' deadline') fun r t r' t' =>
      ∃ a b, r = .ok a ∧ r' = .ok b ∧ M a t b t' :=
  Abreast.bind hp fun a b => abreast_done fun _ _ h => ⟨a, b, rfl, rfl, h⟩

/-- Programs that are waited for are late together, or their results are compared. -/
theorem Abreast.await {p' : Program β} {M : α → σ → β → σ → Prop}
    (early : Work.Prompt answer fair R due) (hp : p.Abreast answer fair R p' M)
    (late : ∀ a b, Work.Prompt answer fair (fun t t' => M a t b t') due)
    {deadline deadline' : Option Nat} (hd : due deadline deadline') :
    (Work.await p deadline).Abreast answer fair R (Work.await p' deadline') fun r t r' t' =>
      (r = .error .late ∧ r' = .error .late ∧ (R t t' ∨ ∃ a b, M a t b t')) ∨
        ∃ a b, r = .ok a ∧ r' = .ok b ∧ M a t b t' := by
  refine Abreast.bind (early deadline deadline' hd) fun x y => ?_
  rintro s s' ⟨rfl, hs⟩
  cases x with
  | true => exact abreast_done (fun _ _ h => .inl ⟨rfl, rfl, .inl h⟩) s s' hs
  | false =>
    refine Abreast.bind hp (fun a b => ?_) s s' hs
    refine Abreast.bind (late a b deadline deadline' hd) fun x y => ?_
    rintro s s' ⟨rfl, hs⟩
    cases x with
    | true => exact abreast_done (fun _ _ h => .inl ⟨rfl, rfl, .inr ⟨a, b, h⟩⟩) s s' hs
    | false => exact abreast_done (fun _ _ h => .inr ⟨a, b, rfl, rfl, h⟩) s s' hs

theorem Agrees.await (prompt : Work.Prompt answer fair R due) (hp : p.Agrees answer fair R) :
    (Work.await p).Agrees answer fair R due := by
  intro deadline deadline' hd
  have late (a b : α) : Work.Prompt answer fair (fun t t' => a = b ∧ R t t') due := by
    intro deadline deadline' hd
    rintro s s' ⟨rfl, hs⟩
    exact (prompt deadline deadline' hd).mono (fun _ _ _ _ h => ⟨h.1, rfl, h.2⟩) s s' hs
  refine (Abreast.await prompt hp late hd).mono ?_
  rintro r t r' t' (⟨rfl, rfl, h | ⟨a, b, -, h⟩⟩ | ⟨a, b, rfl, rfl, rfl, h⟩)
  · exact ⟨rfl, h⟩
  · exact ⟨rfl, h⟩
  · exact ⟨rfl, h⟩

end Program

/-! ### Programs that ask the same

Whatever they are answered, they go on with the same requests, and at their ends their results are
related. If the results are equal the programs are. -/

namespace Program

variable {α β γ δ σ : Type} {R : α → β → Prop}

/-- The programs make the same requests, and what they end with is related. -/
inductive Mirrors (R : α → β → Prop) : Program α → Program β → Prop
  | done {a : α} {b : β} (h : R a b) : Mirrors R (done a) (done b)
  | ask (q : Request) {next : q.Reply → Program α} {next' : q.Reply → Program β}
      (h : ∀ r, Mirrors R (next r) (next' r)) : Mirrors R (ask q next) (ask q next')

theorem mirrors_self (p : Program α) : p.Mirrors Eq p := by
  induction p with
  | done a => exact .done rfl
  | ask q next ih => exact .ask q ih

theorem Mirrors.eq {p p' : Program α} (h : p.Mirrors Eq p') : p = p' := by
  induction h with
  | done h => exact congrArg Program.done h
  | ask q _ ih => exact congrArg (Program.ask q) (funext ih)

theorem Mirrors.mono {S : α → β → Prop} {p : Program α} {p' : Program β} (h : p.Mirrors R p')
    (le : ∀ a b, R a b → S a b) : p.Mirrors S p' := by
  induction h with
  | done h => exact .done (le _ _ h)
  | ask q _ ih => exact .ask q ih

theorem Mirrors.bind {S : γ → δ → Prop} {p : Program α} {p' : Program β} {f : α → Program γ}
    {f' : β → Program δ} (h : p.Mirrors R p') (hf : ∀ a b, R a b → (f a).Mirrors S (f' b)) :
    (p.bind f).Mirrors S (p'.bind f') := by
  induction h with
  | done h => exact hf _ _ h
  | ask q _ ih => exact .ask q ih

/-- Whoever answers, the runs are the same but for their results. -/
theorem Mirrors.run {p : Program α} {p' : Program β} (h : p.Mirrors R p') (answer : Answers σ) (s : σ) :
    R (p.run answer s).1 (p'.run answer s).1 ∧ p.trace answer s = p'.trace answer s ∧
      (p.run answer s).2 = (p'.run answer s).2 := by
  induction h generalizing s with
  | done h => exact ⟨h, rfl, rfl⟩
  | ask q _ ih =>
    obtain ⟨results, traces, states⟩ := ih (answer q s).1 (answer q s).2
    exact ⟨results, congrArg ((q, s) :: ·) traces, states⟩

end Program

namespace Work

open Program

variable {α β γ δ : Type} {R : α → β → Prop}

/-- Returning what work returns adds nothing to it. -/
theorem bind_pure_self (w : Work α) : (w >>= pure) = w := by
  refine funext fun deadline => Eq.trans ?_ (bind_done (w deadline))
  exact congrArg (w deadline).bind (funext fun r => by cases r <;> rfl)

/-- Under every deadline the works make the same requests, and they both succeed or fail alike. -/
def Mirrors (R : α → β → Prop) (w : Work α) (w' : Work β) : Prop :=
  ∀ deadline, (w deadline).Mirrors (Paired Eq R) (w' deadline)

theorem Mirrors.eq {w w' : Work α} (h : w.Mirrors Eq w') : w = w' := by
  refine funext fun deadline => Program.Mirrors.eq ((h deadline).mono fun r r' hr => ?_)
  cases hr with
  | error he => rw [he]
  | ok hab => rw [hab]

theorem mirrors_pure {a : α} {b : β} (h : R a b) : Mirrors R (pure a : Work α) (pure b) :=
  fun _ => .done (.ok h)

theorem Mirrors.bind {S : γ → δ → Prop} {w : Work α} {w' : Work β} {f : α → Work γ} {f' : β → Work δ}
    (h : w.Mirrors R w') (hf : ∀ a b, R a b → (f a).Mirrors S (f' b)) :
    Mirrors S (w >>= f) (w' >>= f') := fun deadline =>
  Program.Mirrors.bind (h deadline) fun _ _ hab => by
    cases hab with
    | error he => exact .done (.error he)
    | ok hab => exact hf _ _ hab deadline

theorem mirrors_self (w : Work α) : w.Mirrors Eq w := fun deadline =>
  (Program.mirrors_self (w deadline)).mono fun r _ same => by
    subst same
    cases r with
    | error e => exact .error rfl
    | ok a => exact .ok rfl

theorem mirrors_ofExcept {r : Except Error α} {r' : Except Error β} (h : Paired Eq R r r') :
    Mirrors R (ofExcept r) (ofExcept r') := fun _ => by
  cases h with
  | error he => exact .done (.error (congrArg Stop.failed he))
  | ok h => exact .done (.ok h)

theorem mirrors_await {p : Program α} {p' : Program β} (h : p.Mirrors R p') :
    Mirrors R (await p) (await p') := fun deadline =>
  (Program.mirrors_self (isLate deadline)).bind fun before _ same => by
    subst same
    cases before with
    | true => exact .done (.error rfl)
    | false =>
      refine h.bind fun a b hab => (Program.mirrors_self (isLate deadline)).bind fun after _ same => ?_
      subst same
      cases after with
      | true => exact .done (.error rfl)
      | false => exact .done (.ok hab)

end Work

end LayerPack
