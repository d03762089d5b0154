import LayerPack.Proofs.Pipeline.Requests

/-! The calls that works make. However a work is answered, it makes a beginning of its calls, one
after the other, and all of them if it succeeds. -/
namespace LayerPack

open Program

variable {α σ : Type} {answer : Answers σ} {host : σ}

/-- The marks among requests, in their order. -/
def marksOf (es : List (Request × σ)) : List Mark := es.filterMap (·.1.mark?)

@[simp] theorem marksOf_nil : marksOf ([] : List (Request × σ)) = [] := rfl

@[simp] theorem marksOf_append (es es' : List (Request × σ)) :
    marksOf (es ++ es') = marksOf es ++ marksOf es' := List.filterMap_append

@[simp] theorem marksOf_cons (q : Request) (h : σ) (es : List (Request × σ)) :
    marksOf ((q, h) :: es) = q.mark?.toList ++ marksOf es := by
  cases hq : q.mark? <;> simp [marksOf, hq]

theorem marksOf_eq_nil {es : List (Request × σ)} (h : ∀ e ∈ es, e.1.mark? = none) :
    marksOf es = [] := List.filterMap_eq_nil_iff.mpr h

/-- A program whose requests are all unmarked leaves no mark. -/
theorem Program.Only.marksOf_trace {K : Request → Prop} {p : Program α} (hp : p.Only K)
    (hK : ∀ q, K q → q.mark? = none) : marksOf (p.trace answer host) = [] :=
  marksOf_eq_nil fun e he => hK e.1 (hp.trace answer host e he)

theorem mem_marksOf {q : Request} {h : σ} {es : List (Request × σ)} {mark : Mark}
    (he : (q, h) ∈ es) (hq : q.mark? = some mark) : mark ∈ marksOf es :=
  List.mem_filterMap.mpr ⟨(q, h), he, hq⟩

/-- Only calls of collaborators are marked as calls. -/
theorem exists_of_called {es : List (Request × σ)} {call : Call} (h : Mark.called call ∈ marksOf es) :
    ∃ deadline host, (.collaborate call deadline, host) ∈ es := by
  obtain ⟨⟨q, host⟩, he, hq⟩ := List.mem_filterMap.mp h
  cases q with
  | collaborate call' deadline =>
    cases hq
    exact ⟨deadline, host, he⟩
  | log level text => cases level <;> simp [Request.mark?] at hq
  | _ => cases hq

/-- What came of a call, if an answer came in time. -/
def Call.answered (call : Call) :
    (deadline : Option Nat) → (Request.collaborate call deadline).Reply →
      Option (Except Error call.Result)
  | none, r => some r
  | some _, r => r

theorem Toolchain.ends_outside {call : Call} {deadline : Option Nat}
    {Q : Except Stop call.Result → List (Request × σ) → σ → Prop} :
    (Toolchain.outside.perform call deadline).Ends answer host Q ↔
      Q (match call.answered deadline (answer (.collaborate call deadline) host).1 with
        | some (.ok r) => .ok r
        | some (.error e) => .error (.failed e)
        | none => .error .late)
        [(.collaborate call deadline, host)] (answer (.collaborate call deadline) host).2 := by
  change (Toolchain.askOutside call deadline).Ends answer host Q ↔ _
  cases deadline with
  | none =>
    unfold Program.Ends Toolchain.askOutside Program.run Program.trace Call.answered
    rcases answer (.collaborate call none) host with ⟨r, h⟩
    cases r <;> exact Iff.rfl
  | some limit =>
    unfold Program.Ends Toolchain.askOutside Program.run Program.trace Call.answered
    rcases answer (.collaborate call (some limit)) host with ⟨r, h⟩
    rcases r with _ | _ | _ <;> exact Iff.rfl

/-- However it is answered, the work makes a beginning of these calls, and all of them if it
succeeds. -/
structure Work.Calls (w : Work α) (calls : List Call) : Prop where
  ends : ∀ {σ : Type} (answer : Answers σ) (host : σ) (deadline : Option Nat),
    (w deadline).Ends answer host fun r es _ =>
      ∃ made, made <+: calls ∧ marksOf es = made.map .called ∧ (r.isOk → made = calls)

namespace Work.Calls

variable {β : Type} {w : Work α} {calls calls' : List Call}

theorem nothing {K : Request → Prop} (hw : w.Only K) (hK : ∀ q, K q → q.mark? = none) :
    w.Calls [] :=
  ⟨fun _ _ deadline => ⟨[], List.prefix_rfl, (hw deadline).marksOf_trace hK, fun _ => rfl⟩⟩

theorem quiet (hw : w.Only Request.Quiet) : w.Calls [] := nothing hw fun _ h => h.mark?

theorem perform (call : Call) : (Toolchain.outside.perform call).Calls [call] :=
  ⟨fun _ _ _ => Toolchain.ends_outside.mpr ⟨[call], List.prefix_rfl, rfl, fun _ => rfl⟩⟩

theorem mapError (hw : w.Calls calls) (f : Error → Error) : (w.mapError f).Calls calls := by
  refine ⟨fun answer host deadline => Work.ends_mapError.mpr ?_⟩
  refine (hw.ends answer host deadline).mono fun r es h hr => ?_
  rcases r with (_ | _) | _ <;> exact hr

theorem bind {f : α → Work β} (hw : w.Calls calls) (hf : ∀ a, (f a).Calls calls') :
    (w >>= f).Calls (calls ++ calls') := by
  refine ⟨fun answer host deadline => Work.ends_bind.mpr ?_⟩
  refine (hw.ends answer host deadline).mono fun r es h hr => ?_
  obtain ⟨made, hp, hm, hall⟩ := hr
  cases r with
  | error stop => exact ⟨made, hp.trans (List.prefix_append _ _), hm, fun h => by cases h⟩
  | ok a =>
    refine ((hf a).ends answer h deadline).mono fun r' es' h' hr' => ?_
    obtain ⟨made', hp', hm', hall'⟩ := hr'
    rw [hall rfl] at hm
    refine ⟨calls ++ made', List.prefix_append_right_inj _ |>.mpr hp', ?_, fun h => ?_⟩
    · rw [marksOf_append, hm, hm', List.map_append]
    · rw [hall' h]

/-- Work that calls nobody can go first. -/
theorem after {f : α → Work β} (hw : w.Calls []) (hf : ∀ a, (f a).Calls calls) :
    (w >>= f).Calls calls := hw.bind hf

/-- Work that calls nobody can come last. -/
theorem before {f : α → Work β} (hw : w.Calls calls) (hf : ∀ a, (f a).Calls []) :
    (w >>= f).Calls calls := by
  simpa using hw.bind hf

end Work.Calls

namespace Pipeline

open Request Work.Calls

theorem clean_calls (s : Settings) : (clean s).Calls [] :=
  nothing (only_clean s) fun _ h => h.mark?

theorem buildWheel_calls (s : Settings) :
    (buildWheel Toolchain.outside s.source s.dist s.project).Calls [.build s.source s.dist] := by
  refine (quiet (Work.Only.now (only_request.mpr (quiet_info (by simp))))).after fun _ => ?_
  refine (perform _).before fun _ => (quiet (Wheel.only_select _ _)).after fun wheel => ?_
  exact (quiet (Work.Only.now (only_request.mpr (quiet_info (by simp))))).after fun _ =>
    quiet (Work.only_pure _)

theorem install_calls (s : Settings) (workspace : Workspace) (wheel : Wheel) :
    (install Toolchain.outside s workspace wheel).Calls
      [.installInto wheel.path (workspace.installDir s.layerPrefix)] := by
  refine before (w := materialize _ _ _) ?_ fun _ => quiet (Archive.only_treeDigest _)
  refine (quiet (Work.Only.now (only_request.mpr (quiet_info (by simp))))).after fun _ => ?_
  refine (nothing (Work.Only.await (.inl trivial) (Files.only_makeDirs _))
    fun _ h => h.mark?).after fun made => ?_
  refine (quiet (Work.only_ofExcept _)).after fun _ => ?_
  exact ((perform _).mapError _).before fun _ =>
    quiet (Work.Only.now (only_request.mpr (quiet_info (by simp))))

theorem removeInstalled_calls (project : String) (installed : Bool) :
    (removeInstalled Toolchain.outside project installed).Calls
      (if installed then [.uninstall project] else []) := by
  cases installed with
  | true =>
    exact (quiet (Work.Only.now (only_request.mpr (quiet_info (by simp))))).after fun _ =>
      (perform _).mapError _
  | false => exact quiet (Work.Only.now (only_request.mpr (quiet_debug (by simp))))

theorem installWheel_calls (project : String) (wheel : Wheel) :
    (installWheel Toolchain.outside project wheel).Calls [.install wheel.path] := by
  refine (quiet (Work.Only.now (only_request.mpr (quiet_info (by simp))))).after fun _ => ?_
  exact ((perform _).mapError _).before fun _ =>
    quiet (Work.Only.now (only_request.mpr (quiet_info (by simp))))

theorem archive_calls (root output : Path) : (Archive.write root output).Calls [] :=
  nothing (Archive.only_write root output (fun _ _ h => h.mark?) fun _ _ => rfl) fun _ h => h

end Pipeline

end LayerPack
