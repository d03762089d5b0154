import Mathlib.Algebra.Ring.Nat
import LayerPack.Archive.Limits
import LayerPack.Proofs.Archive.Reading
import LayerPack.Proofs.Project.Discovery

/-! What the check of the size limits finds and reports. It measures the archive as it was given out when it
was opened, and says that it is within the limits if none of its two sizes exceeds its limit. The numbers
are exact: the sum of the sizes stops at the largest number that is counted, and a limit below that number
is exceeded by the sum that stops exactly if it is exceeded by the one that does not. -/
namespace LayerPack.Archive

open Program Machine

section

variable {σ : Type} {answer : Answers σ} {state : σ}

/-- No size exceeds its limit. -/
def LimitReport.Keeps (r : LimitReport) (limits : Limits) : Prop :=
  r.zippedBytes ≤ limits.maxZipped ∧ r.unzippedBytes ≤ limits.maxUnzipped

theorem isWithin_report (limits : Limits) (zipped : Nat) (items : List Zip.Item) :
    (limits.report zipped items).isWithin ↔ (limits.report zipped items).Keeps limits := by
  unfold Limits.report LimitReport.isWithin LimitReport.Keeps Limits.violations
  generalize totalSize (items.map (·.size)) = unzipped
  dsimp only
  by_cases hz : zipped > limits.maxZipped
  · simp [hz, Nat.not_le.mpr hz]
  · by_cases hu : unzipped > limits.maxUnzipped
    · simp [hz, hu, Nat.not_le.mpr hu]
    · simp [hz, hu, Nat.not_lt.mp hz, Nat.not_lt.mp hu]

/-- Among these requests the archive was opened, and this is the measure of what was given out. -/
def Weighed (answer : Answers σ) (es : List (Request × σ)) (archive : Path) (limits : Limits)
    (found : LimitReport) : Prop :=
  ∃ s content items, (Request.openRead archive, s) ∈ es ∧
    (answer (.openRead archive) s).1 = .ok (.data content) ∧ Zip.items? content = some items ∧
    found = limits.report content.size items

theorem Weighed.mono {es es' : List (Request × σ)} {archive : Path} {limits : Limits}
    {found : LimitReport} (h : Weighed answer es archive limits found) (sub : es ⊆ es') :
    Weighed answer es' archive limits found :=
  let ⟨s, content, items, hm, h⟩ := h
  ⟨s, content, items, sub hm, h⟩

theorem Weighed.isWithin {es : List (Request × σ)} {archive : Path} {limits : Limits}
    {found : LimitReport} (h : Weighed answer es archive limits found) :
    found.isWithin ↔ found.Keeps limits := by
  obtain ⟨-, content, items, -, -, -, rfl⟩ := h
  exact isWithin_report limits content.size items

theorem items?_empty : Zip.items? .empty = none := by decide +kernel

theorem check_ends (archive : Path) (limits : Limits) :
    (check archive limits).Ends answer state fun r es _ =>
      ∀ found, r = .ok found → Weighed answer es archive limits found := by
  refine Ends.bind (p := Files.openRead archive)
    (M := fun r es _ => es = [(.openRead archive, state)] ∧
      r = (answer (.openRead archive) state).1) ⟨rfl, rfl⟩ ?_
  rintro r _ s ⟨rfl, opened⟩
  cases r with
  | error e => exact fun _ h => by cases h
  | ok file =>
    have read : (Files.readAll Files.textBuffer file).Returns fun r => ∀ content, r = .ok content →
        file = .data content ∨ content = .empty := by
      cases file with
      | data unread =>
        exact (Files.readAll_returns _ unread).mono fun r hr content h => .inl (hr content h ▸ rfl)
      | directory =>
        rw [Files.readAll, Files.readFrom]
        intro r
        cases r with
        | error e => exact fun _ h => by cases h
        | ok n => exact fun content h => .inr (Except.ok.inj h).symm
    refine Ends.bind (p := Files.readAll Files.textBuffer file)
      (M := fun r _ _ => ∀ content, r = .ok content → file = .data content ∨ content = .empty)
      (read.run answer s) fun r es _ hr => ?_
    cases r with
    | error e => exact fun _ h => by cases h
    | ok content =>
      dsimp only
      cases hitems : Zip.items? content with
      | none => exact fun _ h => by cases h
      | some items =>
        obtain rfl : file = .data content := by
          rcases hr content rfl with h | rfl
          · exact h
          · cases items?_empty.symm.trans hitems
        refine Ends.bind (M := fun _ _ _ => True) trivial fun _ es' _ _ => ?_
        rintro _ ⟨⟩
        exact ⟨state, content, items, by simp, opened.symm, hitems, rfl⟩

end

theorem foldl_saturating {cap start : Nat} (sizes : List Nat) (h : start ≤ cap) :
    sizes.foldl (fun sum n => min (sum + n) cap) start = min (start + sizes.sum) cap := by
  induction sizes generalizing start with
  | nil => simp [h]
  | cons n rest ih =>
    rw [List.foldl_cons, ih (Nat.min_le_right _ _), List.sum_cons]
    omega

theorem totalSize_eq (sizes : List Nat) : totalSize sizes = min sizes.sum maxCount := by
  rw [totalSize, foldl_saturating sizes (Nat.zero_le _), Nat.zero_add]

/-- Below the largest number nothing is hidden and nothing invented. -/
theorem lt_totalSize {limit : Nat} (h : limit < maxCount) (sizes : List Nat) :
    limit < totalSize sizes ↔ limit < sizes.sum := by
  rw [totalSize_eq]
  omega

theorem ofMib_eq {n : Nat} (h : n * mib < 2 ^ 64) : ofMib n = n * mib := by
  rw [ofMib, maxCount]
  exact Nat.min_eq_left (Nat.le_pred_of_lt h)

/-- Every number of mebibytes that can be counted stays below the largest number. -/
theorem mib_lt_maxCount {n : Nat} (h : n * mib < 2 ^ 64) : n * mib < maxCount := by
  simp only [mib, maxCount, Nat.pow_eq] at h ⊢
  omega

/-- What is said of an archive that is too large. -/
def Limits.overZipped (limits : Limits) (bytes : Nat) : String :=
  "archive is " ++ toString bytes ++ " bytes, limit is " ++ toString limits.maxZipped ++ " bytes"

/-- What is said of contents that are too large. -/
def Limits.overUnzipped (limits : Limits) (bytes : Nat) : String :=
  "extracted size is " ++ toString bytes ++ " bytes, limit is " ++ toString limits.maxUnzipped ++ " bytes"

/-- A report that compares with the length of the archive and with the exact sum of the sizes. -/
structure Limits.Judges (limits : Limits) (content : ByteArray) (items : List Zip.Item)
    (found : LimitReport) : Prop where
  zipped : found.zippedBytes = content.size
  unzipped : found.unzippedBytes = min (items.map (·.size)).sum maxCount
  entries : found.entries = items.length
  violations : found.violations =
    (if limits.maxZipped < content.size then [limits.overZipped content.size] else []) ++
      if limits.maxUnzipped < (items.map (·.size)).sum then [limits.overUnzipped found.unzippedBytes] else []

variable {limits : Limits} {content : ByteArray} {items : List Zip.Item} {found : LimitReport}

theorem judges_report (h : limits.maxUnzipped < maxCount) (content : ByteArray) (items : List Zip.Item) :
    limits.Judges content items (limits.report content.size items) where
  zipped := rfl
  unzipped := totalSize_eq _
  entries := rfl
  violations := by
    simp only [← lt_totalSize h]
    rfl

/-- Without a violation both sizes are within their limits, which they may reach. -/
theorem Limits.Judges.isWithin (h : limits.Judges content items found) : found.isWithin = true ↔
    content.size ≤ limits.maxZipped ∧ (items.map (·.size)).sum ≤ limits.maxUnzipped := by
  rw [LimitReport.isWithin, h.violations, List.isEmpty_iff, List.append_eq_nil_iff, ← Nat.not_lt,
    ← Nat.not_lt]
  split_ifs <;> simp [*]

variable {o : Outside} {n : Machine}

/-- A file that can be read as an archive is measured, unless the host refuses a request. -/
theorem check_reports {archive : Path} {mode : Nat} (file : n.disk.FileAt n.cwd archive mode content)
    (readable : Zip.items? content = some items) (limits : Limits) :
    (check archive limits).Ends (answer o) n fun r es _ =>
      r = .ok (limits.report content.size items) ∨ ∃ e why, o.Faults es e ∧ r = .error why := by
  refine (Files.openRead_ends file).bind ?_
  rintro (e | file) es n' ⟨opened, refused⟩
  · exact .inr ⟨e, _, (refused e rfl).mono (by simp), rfl⟩
  · obtain rfl := opened file rfl
    refine (Files.readAll_whole Files.textBuffer content).bind ?_
    rintro (e | read) es' n'' ⟨whole, refused⟩
    · exact .inr ⟨e, _, (refused e rfl).mono (by simp), rfl⟩
    · cases whole read rfl
      dsimp only
      rw [readable]
      refine Ends.bind (M := fun _ _ _ => True) trivial fun _ _ _ _ => ?_
      exact .inl rfl

end LayerPack.Archive
