import LayerPack.Host.Request
import LayerPack.Pipeline.Stage

/-! The marks that a run leaves for an observer: the beginning and the success of a stage, which
the log tells, and the calls of collaborators. A request that marks nothing and changes nothing is
quiet. -/
namespace LayerPack

/-- One thing that an observer of a run can see of its progress. -/
inductive Mark where
  | began (stage : Stage)
  | called (call : Call)
  | passed (stage : Stage)
  deriving DecidableEq

namespace Request

/-- What a request tells of the progress of a run, if it tells anything. -/
def mark? : Request → Option Mark
  | log .info text => (Stage.all.find? fun stage => text = stage.announcement).map .began
  | log .debug text =>
    (Stage.all.find? fun stage => stage.completionStart.toList.isPrefixOf text.toList).map .passed
  | collaborate call _ => some (.called call)
  | _ => none

/-- Nothing on the disk is changed, no other program is run, and no progress is marked. -/
def Quiet : Request → Prop
  | stat .. | list _ | snapshot _ | openRead _ | read .. | sync _ | workingDirectory => True
  | .variable _ | clock | freshName => True
  | log level text => (log level text).mark? = none
  | _ => False

@[simp] theorem mark?_clock : clock.mark? = none := rfl

@[simp] theorem mark?_announcement (stage : Stage) :
    (log .info stage.announcement).mark? = some (.began stage) := by
  cases stage <;> rfl

@[simp] theorem mark?_completion (stage : Stage) (duration : Nat) :
    (log .debug (stage.completion duration)).mark? = some (.passed stage) := by
  cases stage <;>
    simp [mark?, Stage.all, Stage.completion, Stage.completionStart, Stage.name, List.isPrefixOf]

/-- Only the texts that begin like an announcement mark the beginning of a stage. -/
theorem mark?_info {text : String} (h : text.toList.head? ≠ some '▶') :
    (log .info text).mark? = none := by
  simp only [mark?, Option.map_eq_none_iff, List.find?_eq_none, decide_eq_true_eq]
  rintro stage - rfl
  exact h (by cases stage <;> rfl)

theorem mark?_debug {text : String} (h : text.toList.head? ≠ some 'S') :
    (log .debug text).mark? = none := by
  simp only [mark?, Option.map_eq_none_iff, List.find?_eq_none]
  intro stage _ hp
  rw [List.isPrefixOf_iff_prefix] at hp
  obtain ⟨rest, hr⟩ := hp
  rw [← hr] at h
  exact h (by cases stage <;> simp [Stage.completionStart, Stage.name])

theorem quiet_info {text : String} (h : text.toList.head? ≠ some '▶') :
    (log .info text).Quiet := mark?_info h

theorem quiet_debug {text : String} (h : text.toList.head? ≠ some 'S') :
    (log .debug text).Quiet := mark?_debug h

@[simp] theorem quiet_warn (text : String) : (log .warn text).Quiet := rfl

@[simp] theorem quiet_error (text : String) : (log .error text).Quiet := rfl

theorem Quiet.mark? {q : Request} (h : q.Quiet) : q.mark? = none := by
  cases q <;> first | exact h | rfl | exact h.elim

end Request

end LayerPack
