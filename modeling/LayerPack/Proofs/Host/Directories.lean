import LayerPack.Proofs.Disk.Filed
import LayerPack.Proofs.Disk.Renewal
import LayerPack.Proofs.Host.Agreement

/-! Making directories with those above them. The first one is made where the path has stopped. On two
disks that come to be like a plan which has all of these directories, they are made in the same way, and
the disks stay so. -/
namespace LayerPack

open Program Machine

namespace Disk

variable {d : Disk} {place : Place} {p up : Path} {names : List Name}

/-- Above a directory there are directories. -/
theorem LeadsTo.above (h : d.LeadsTo p place) (spells : p.Spells names) (above : Path.Above up p) :
    up.isAbsolute ∧ ∃ dest, d.LeadsTo up dest := by
  obtain ⟨front, -, hup⟩ := above.spells spells
  refine ⟨hup.absolute, ?_⟩
  cases above with
  | refl => exact ⟨place, h⟩
  | up parent above =>
    obtain ⟨check, way⟩ := leadsTo_iff.mp h
    obtain ⟨before, hb | ⟨rest, hrest, part, hpart, some⟩⟩ := Path.Over.written ⟨_, parent, above⟩
    · obtain ⟨rest, hrest⟩ := Path.eq_slash_cons hup.absolute
      cases hb.symm.trans hrest
    · have named : part ≠ [] := by
        rintro rfl
        cases some
      rw [hrest] at way
      obtain ⟨dest, way⟩ := way.upTo ⟨part, hpart, named⟩
      have nonempty : up.bytes ≠ [] := by
        obtain ⟨rest, hrest⟩ := Path.eq_slash_cons hup.absolute
        simp [hrest]
      have check := checkPath_prefix nonempty before check
      exact ⟨dest, leadsTo_iff.mpr ⟨check, way⟩⟩

/-- Two well-formed disks that come to be like a plan. -/
structure Furnished (counts : Place → Prop) (plan d d' : Disk) : Prop where
  parallel : Parallel counts plan d d'
  form : d.root.WellFormed
  form' : d'.root.WellFormed

end Disk

theorem Machine.enlarged_mkdir (o : Outside) (m : Machine) (p : Path) (wf : m.disk.root.WellFormed) :
    m.disk.Enlarged (answer o (.mkdir p) m).2.disk ∧
      (answer o (.mkdir p) m).2.disk.root.WellFormed := by
  rcases changed_mkdir o m p with ⟨-, hop, -⟩ | ⟨-, same⟩
  · exact ⟨Disk.look_mkdir hop, (Disk.mkdir_tame hop).wellFormed wf⟩
  · rw [same.disk]
    exact ⟨.refl _, wf⟩

/-- The first directory that is made along a path is where the path has stopped. -/
theorem Machine.refilled_makes {o : Outside} {m : Machine} {d : Disk} {up : Path} {names : List Name}
    {q : Request} (h : q.Makes up) (spells : up.Spells names) (wf : d.root.WellFormed)
    {R : Path → Prop} (hup : R up) (before : m.disk = d ∨ ∃ p, R p ∧ Disk.Refilled p d m.disk) :
    (answer o q m).2.disk = d ∨ ∃ p, R p ∧ Disk.Refilled p d (answer o q m).2.disk := by
  rcases h with h | ⟨made, above, rfl⟩
  · rw [(same_quiet h o m).disk]
    exact before
  rcases before with same | ⟨p, hp, refilled⟩
  · rcases changed_mkdir o m made with ⟨-, hop, -⟩ | ⟨-, unchanged⟩
    · rw [same] at hop
      obtain ⟨_, -, absolute⟩ := above.spells spells
      obtain ⟨front, name, place, hmade, stops, there⟩ := Disk.stops_mkdir absolute.absolute hop
      obtain ⟨rest, hparts⟩ := Disk.parts_of_above above
      rw [hmade, List.append_assoc, List.singleton_append] at hparts
      exact .inr ⟨up, hup, ⟨front, name, rest, place, hparts.symm, stops, there⟩, Disk.look_mkdir hop,
        (Disk.mkdir_tame hop).wellFormed wf⟩
    · exact .inl (unchanged.disk.trans same)
  · obtain ⟨more, wf'⟩ := enlarged_mkdir o m made refilled.form'
    exact .inr ⟨p, hp, refilled.enlarge more wf'⟩

namespace Files

variable {k : Kinship} {asked : Call → Prop} {o : Outside} {counts : Place → Prop} {plan : Disk}
  {place : Place} {p : Path} {names : List Name}

theorem agrees_mkdir_planned (steady : o.Steady k asked) (hp : p.isAbsolute) (h : plan.LeadsTo p place) :
    (mkdir p).Agrees (answer o) Drawn (Kin k (Disk.Furnished counts plan)) := by
  refine abreast_request rfl fun m m' hm => hm.changing steady ?_
  change Both (Disk.Furnished counts plan) (m.disk.mkdir m.cwd p) (m'.disk.mkdir m'.cwd p)
  rw [hm.cwd]
  obtain ⟨es, found⟩ := h
  rw [Disk.resolve_absolute hp [] m.cwd] at found
  rcases (hm.disk.parallel.mkdir found).outcome with ⟨e, hd, hd'⟩ | ⟨d, d', hd, hd', parallel⟩
  · rw [hd, hd']
    exact .error e
  · rw [hd, hd']
    exact .ok ⟨parallel, (Disk.mkdir_tame hd).wellFormed hm.disk.form,
      (Disk.mkdir_tame hd').wellFormed hm.disk.form'⟩

theorem agrees_stat_planned (steady : o.Steady k asked) (hp : p.isAbsolute) (h : plan.LeadsTo p place) :
    (stat p).Agrees (answer o) Drawn (Kin k (Disk.Furnished counts plan)) :=
  abreast_request rfl fun m m' hm => hm.reading steady (Q := Eq) (by
    change m.disk.stat m.cwd true p = m'.disk.stat m'.cwd true p
    obtain ⟨es, found⟩ := h
    rw [Disk.resolve_absolute hp [] m.cwd] at found
    rw [hm.cwd, hm.disk.parallel.stat found])

/-- A directory of the plan is made in the same way on both disks. -/
theorem agrees_makeDirs_planned (steady : o.Steady k asked) (spells : p.Spells names)
    (h : plan.LeadsTo p place) :
    (makeDirs p).Agrees (answer o) Drawn (Kin k (Disk.Furnished counts plan)) := by
  refine agrees_makeDirs_of (fun up above => ?_) fun up above => ?_
  · obtain ⟨absolute, dest, there⟩ := h.above spells above
    exact agrees_mkdir_planned steady absolute there
  · obtain ⟨absolute, dest, there⟩ := h.above spells above
    exact agrees_stat_planned steady absolute there

end Files

end LayerPack
