import LayerPack.Proofs.Archive.Verdict
import LayerPack.Proofs.CommandLine.Status

/-! How a session ends that checks its archive against the limits of the command line. These are given in
mebibytes, and the archive is compared with that many bytes exactly. -/
namespace LayerPack

open Session Machine Archive
open Program hiding bind

namespace Args

variable {σ : Type} {answer : Answers σ} {state : σ}

/-- A session that has measured its archive ends as the measure says, if its report can be written. -/
theorem execute_judged (a : Args) : a.execute.Ends answer state fun r es _ => AllHeard answer es →
    ∀ report found, (a.measures.run answer state).1 = .ok (report, some found) →
      Weighed answer es report.archive.path a.limits found ∧
        ((a.json → report.isText) →
          r = if found.isWithin then .ok () else .error (.overLimits found.violations)) := by
  have measured := a.measures_measured answer state
  refine a.execute_concludes.mono fun r es _ ⟨sub, concludes⟩ heard report found hf => ?_
  have concluded := concludes heard
  change a.Measured answer state (a.measures.trace answer state) _ at measured
  rw [hf] at measured concluded
  cases measured with
  | done _ _ asked ran measure =>
    refine ⟨(measure found rfl).mono sub, fun text => ?_⟩
    have plain : ¬ (a.json && !report.isText) := by
      cases hj : a.json <;> simp [hj] at text ⊢
      exact text
    rw [Concludes, if_neg plain] at concluded
    exact concluded

/-- The limits of the command line are so many bytes. -/
theorem limits_eq {a : Args} (hz : a.maxZippedMib * 2 ^ 20 < 2 ^ 64) (hu : a.maxUnzippedMib * 2 ^ 20 < 2 ^ 64) :
    a.limits = ⟨a.maxZippedMib * 2 ^ 20, a.maxUnzippedMib * 2 ^ 20⟩ := by
  rw [limits, ofMib_eq hz, ofMib_eq hu]
  rfl

/-- The archive that was weighed is a file that stood there when it was opened. -/
theorem judges_of_weighed {o : Outside} {es : List (Request × Machine)} {archive : Path} {limits : Limits}
    {found : LimitReport} (h : Weighed (Machine.answer o) es archive limits found)
    (countable : limits.maxUnzipped < maxCount) : ∃ before mode content items,
      (.openRead archive, before) ∈ es ∧ before.disk.FileAt before.cwd archive mode content ∧
        Zip.items? content = some items ∧ limits.Judges content items found := by
  obtain ⟨before, content, items, hm, opened, readable, rfl⟩ := h
  obtain ⟨mode, file⟩ := Disk.fileAt_of_openRead (openRead_ok opened)
  exact ⟨before, mode, content, items, hm, file, readable, judges_report countable content items⟩

end Args

/-- The limits are compared in exact numbers. The check of a file that can be read as an archive reports
that the file is too long exactly if its length exceeds the limit, then that its contents are too large
exactly if the sum of the declared sizes does, and nothing else; only a request that the host refuses
keeps it from a report. A session compares with the given mebibytes in bytes, and it ends well if no
size exceeds its limit. -/
theorem limits_exact (o : Outside) (n : Machine) :
    (∀ archive limits mode content items, limits.maxUnzipped < 2 ^ 64 - 1 →
      n.disk.FileAt n.cwd archive mode content → Zip.items? content = some items →
      (Archive.check archive limits).Ends (answer o) n fun r es _ =>
        (∃ found, r = .ok found ∧ limits.Judges content items found) ∨
          ∃ e why, o.Faults es e ∧ r = .error why) ∧
      ∀ a : Args, a.maxZippedMib * 2 ^ 20 < 2 ^ 64 → a.maxUnzippedMib * 2 ^ 20 < 2 ^ 64 →
        a.execute.Ends (answer o) n fun r es _ => AllHeard (answer o) es →
          ∀ report found, (a.measures.run (answer o) n).1 = .ok (report, some found) →
            ∃ before mode content items, (.openRead report.archive.path, before) ∈ es ∧
              before.disk.FileAt before.cwd report.archive.path mode content ∧
              Zip.items? content = some items ∧
              Limits.Judges ⟨a.maxZippedMib * 2 ^ 20, a.maxUnzippedMib * 2 ^ 20⟩ content items found ∧
              ((a.json → report.isText) →
                if content.size ≤ a.maxZippedMib * 2 ^ 20 ∧
                    (items.map (·.size)).sum ≤ a.maxUnzippedMib * 2 ^ 20
                then r = .ok () else r = .error (.overLimits found.violations)) := by
  refine ⟨fun archive limits mode content items countable file readable => ?_, fun a hz hu => ?_⟩
  · refine (check_reports file readable limits).mono fun r es _ h => h.imp_left fun h => ?_
    exact ⟨_, h, judges_report countable content items⟩
  · refine a.execute_judged.mono fun r es _ judged heard report found measured => ?_
    obtain ⟨weighed, ended⟩ := judged heard report found measured
    rw [Args.limits_eq hz hu] at weighed
    obtain ⟨before, mode, content, items, hm, file, readable, judges⟩ :=
      Args.judges_of_weighed weighed (mib_lt_maxCount hu)
    refine ⟨before, mode, content, items, hm, file, readable, judges, fun text => ?_⟩
    rw [ended text]
    have within := judges.isWithin
    by_cases sizes : content.size ≤ a.maxZippedMib * 2 ^ 20 ∧
        (items.map (·.size)).sum ≤ a.maxUnzippedMib * 2 ^ 20
    · rw [if_pos (within.mpr sizes), if_pos sizes]
    · rw [if_neg fun h => sizes (within.mp h), if_neg sizes]

/-- The header of an entry without content that claims the largest size there is. -/
def boastfulHeader (name : UInt8) (offset : Nat) : List UInt8 :=
  Zip.numberBytes 4 0x02014B50 ++ Zip.numberBytes 8 20 ++ Zip.numberBytes 8 0 ++ Zip.numberBytes 4 0 ++
    Zip.numberBytes 4 0xFFFFFFFF ++ Zip.numberBytes 2 1 ++ Zip.numberBytes 2 12 ++ Zip.numberBytes 8 0 ++
    Zip.numberBytes 2 0 ++ Zip.numberBytes 4 offset ++ [name] ++
    Zip.numberBytes 2 1 ++ Zip.numberBytes 2 8 ++ Zip.numberBytes 8 (2 ^ 64 - 1)

/-- An archive with two such entries. -/
def boastful : ByteArray := (
  Zip.numberBytes 4 0x04034B50 ++ Zip.numberBytes 26 0 ++ Zip.numberBytes 4 0x04034B50 ++ Zip.numberBytes 26 0 ++
    boastfulHeader 0x61 0 ++ boastfulHeader 0x62 30 ++
    Zip.numberBytes 4 0x06054B50 ++ Zip.numberBytes 4 0 ++ Zip.numberBytes 2 2 ++ Zip.numberBytes 2 2 ++
    Zip.numberBytes 4 118 ++ Zip.numberBytes 4 60 ++ Zip.numberBytes 2 0).toByteArray

/-- The claims add up to more than can be counted, and that is too much for the largest limit. -/
theorem boastful_exceeds : (Archive.check (.ofString "/a.zip") ⟨2 ^ 20, 2 ^ 64 - 2⟩).Ends (answer (.small []))
    (.small [("a.zip", .file 0 0o644 boastful)]) fun r _ _ => ∃ found, r = .ok found ∧
      Limits.overUnzipped ⟨2 ^ 20, 2 ^ 64 - 2⟩ (2 ^ 64 - 1) ∈ found.violations := by
  have sizes : (Zip.items? boastful).map (·.map (·.size)) = some [2 ^ 64 - 1, 2 ^ 64 - 1] := by
    decide +kernel
  obtain ⟨items, readable, hs⟩ := Option.map_eq_some_iff.mp sizes
  have file : Disk.FileAt (Machine.small [("a.zip", .file 0 0o644 boastful)]).disk [] (.ofString "/a.zip") 0o644
      boastful := ⟨[Bytes.ofString "a.zip"], 0, by rfl⟩
  refine ((limits_exact (.small []) _).1 _ _ _ _ _ (by decide) file readable).mono ?_
  rintro r es _ (⟨found, rfl, judges⟩ | ⟨e, why, ⟨asked, -, fault⟩, -⟩)
  · refine ⟨found, rfl, ?_⟩
    rw [judges.violations, judges.unzipped, hs]
    simp [maxCount]
  · cases fault

end LayerPack
