import LayerPack.Proofs.Disk.Parallel
import LayerPack.Proofs.Disk.Stop

/-! A disk that is renewed: what a path names is removed, directories are made, and what another path names
is dropped. In the end the first path leads somewhere, and both paths name the places that they have named
before. Then neither of their ways goes through what has been removed, so the same is done on every disk
that differs only at and below these two places. -/
namespace LayerPack

variable {root root' : Node}

/-- Where the same is told of what is seen in one tree, the ways of it are kept. -/
theorem Node.keepsWays_of_view (h : ∀ p face, root.look p = some face → root.view p = root'.view p) :
    root.KeepsWays root' := by
  refine ⟨fun p hp => ?_, fun p target hp => ?_⟩
  · obtain ⟨-, es, hd⟩ := look_eq_dir.mp hp
    obtain ⟨es', hd'⟩ := dir_of_view (h p _ hp) hd
    exact look_of_get? hd'
  · exact look_eq_link.mpr (link_of_view (h p _ hp) (look_eq_link.mp hp))

namespace Disk

variable {d d' gone full e g g' : Disk} {p stale : Path} {names up rest : List Name} {name : Name}
  {place parent dest o : Place}

/-- The path is written by proper names. -/
structure Written (p : Path) (names : List Name) : Prop where
  eq : p = .ofNames names
  proper : ∀ name ∈ names, ProperName name

/-- What a path names is removed, unless nothing is there. A directory is not removed. -/
def Dropped (p : Path) (d d' : Disk) : Prop :=
  d' = d ∧ d.stat [] false p = .error .noEntry ∨ d.unlink [] p = .ok d'

theorem Dropped.keepsWays (h : Dropped p d d') (wf : d.root.WellFormed) : d'.root.KeepsWays d.root := by
  rcases h with ⟨rfl, -⟩ | h
  · exact .refl _
  · obtain ⟨parent, name, node, -, -, -, rfl⟩ := unlink_ok h
    exact erase_keepsWays wf (by simp)

theorem Dropped.without (h : Dropped p d d') (wf : d.root.WellFormed)
    (hp : d.lookupParent [] p = .ok (parent, .name name false)) :
    (∀ es, d.get? (parent ++ [name]) ≠ some (.dir es)) ∧ d.Without (parent ++ [name]) d' := by
  rcases h with ⟨rfl, h⟩ | h
  · have seen := stat_entry hp
    rw [h] at seen
    cases hg : d'.get? (parent ++ [name]) with
    | none => exact ⟨fun es h => (nomatch h), without_of_none wf hg⟩
    | some node =>
      rw [hg] at seen
      cases seen
  · obtain ⟨parent', name', node, hp', hg, hd, -⟩ := unlink_ok h
    cases hp.symm.trans hp'
    obtain ⟨d'', hu, without⟩ := unlink_entry hp wf hg hd
    cases h.symm.trans hu
    refine ⟨fun es he => ?_, without⟩
    cases hg.symm.trans he
    cases hd

/-- The place is not below the one that the path names, and not that one either. -/
def Off (p : Path) (d : Disk) (place : Place) : Prop :=
  ∀ seat, d.seat [] p = some seat → ¬ seat <+: place

/-- Two well-formed disks of which the same is told, but at and below the place that the first path
names, and at the one that the second path names. There the second disk has no directory. -/
structure AlikeBut (p stale : Path) (d d' : Disk) : Prop where
  same : ∀ place, d.Off p place → d.seat [] stale ≠ some place → d.view place = d'.view place
  noDir : ∀ place es, d.Off p place → d.seat [] stale = some place → d'.get? place ≠ some (.dir es)
  form : d.root.WellFormed
  form' : d'.root.WellFormed

/-- Directories have been made, the first of them where the path has stopped. -/
structure Refilled (p : Path) (d d' : Disk) : Prop where
  stops : ∃ front name rest place, p.parts = front ++ name :: rest ∧ d.Stops front place name ∧
    ∃ es, d'.get? (place ++ [name]) = some (.dir es)
  enlarged : d.Enlarged d'
  form' : d'.root.WellFormed

/-- More directories are made. -/
theorem Refilled.enlarge (h : Refilled p d d') (more : d'.Enlarged g) (wf : g.root.WellFormed) :
    Refilled p d g where
  stops := by
    obtain ⟨front, name, rest, place, hparts, stops, es, made⟩ := h.stops
    have still := more.grows (place ++ [name]) (by simp [made])
    obtain ⟨-, es', there⟩ := Node.look_eq_dir.mp (still.trans (Node.look_of_get? made))
    exact ⟨front, name, rest, place, hparts, stops, es', there⟩
  enlarged := h.enlarged.trans more
  form' := wf

/-- What a path names is removed from a disk, then directories are made, the first of them where the path
has stopped. -/
structure Anew (p : Path) (d gone full : Disk) : Prop extends Refilled p gone full where
  cleared : d.ClearedAt [] p gone
  ways : gone.root.KeepsWays d.root
  form : gone.root.WellFormed

/-- Then what another path names is dropped. -/
structure Renewed (p stale : Path) (d gone full e : Disk) : Prop extends Anew p d gone full where
  dropped : full.Dropped stale e

/-- The path leads somewhere at the end, and both paths name the places that they have named before. -/
structure Undiverted (p stale : Path) (d e : Disk) : Prop where
  leads : ∃ place, e.LeadsTo p place
  seated : ∀ place, d.seat [] p = some place → e.seat [] p = some place
  staleSeated : ∀ place, d.seat [] stale = some place → e.seat [] stale = some place

theorem Renewed.undone (h : Renewed p stale d gone full e) : e.root.KeepsWays full.root :=
  h.dropped.keepsWays h.form'

/-- Of a disk is left what stands at some places, and nothing else. -/
structure Left (stays : Place → Prop) (d d' : Disk) : Prop where
  same : ∀ q, stays q → d'.look q = d.look q
  gone : ∀ q, ¬ stays q → d'.get? q = none

theorem Without.left (h : d'.Without place g') (hs : d.seat [] p = some place) :
    d'.Left (d.Off p) g' where
  same q off := h.same q (off place hs)
  gone q on := by
    have below : place <+: q := Classical.byContradiction fun off => on fun seat hseat =>
      Option.some.inj (hs.symm.trans hseat) ▸ off
    obtain ⟨rest, rfl⟩ := below
    exact h.gone rest

theorem left_of_unseated (hs : d.seat [] p = none) : d'.Left (d.Off p) d' where
  same _ _ := rfl
  gone q on := (on fun seat hseat => by cases hs.symm.trans hseat).elim

namespace Renewed

variable (h : Renewed p stale d gone full e) (hp : Written p names) (straight : Undiverted p stale d e)

include h hp straight

/-- Where the path is missing in the beginning, it stops before what is made anew. -/
theorem unseated (hnames : names = up ++ name :: rest) (hrest : rest ≠ [])
    (stops : gone.Stops up place name) {es : Entries}
    (made : full.get? (place ++ [name]) = some (.dir es)) : d.seat [] p = none := by
  obtain ⟨rfl, proper⟩ := hp
  obtain ⟨more, last, rfl⟩ := (List.eq_nil_or_concat rest).resolve_left hrest
  rw [List.concat_eq_append] at hnames
  obtain rfl : names = (up ++ name :: more) ++ [last] := by simpa using hnames
  refine Option.eq_none_iff_forall_ne_some.mpr fun seat hs => ?_
  have still := seat_keeps h.undone (straight.seated seat hs)
  obtain ⟨parent, rfl, hp⟩ := (seat_ofNames proper).mp hs
  obtain ⟨parent', heq, hp'⟩ := (seat_ofNames proper).mp still
  obtain rfl := (List.append_inj_left' heq rfl)
  -- The way goes on straight through what is new.
  obtain ⟨-, -, way⟩ := (lookupParent_ofNames proper).mp hp'
  have entered := (stops.way.keeps h.enlarged.grows.keepsWays).child stops.proper stops.fits made
  have onward : parent = place ++ [name] ++ more := by
    refine entered.onward (by simpa using way)
      (Path.componentsOf_names fun n hn => proper n (by simp [hn])) fun below target hl => ?_
    have none := get?_below_missing stops.missing below
    cases none.symm.trans (h.enlarged.link hl)
  obtain ⟨inner, hd⟩ := dir_of_lookupParent hp
  rw [onward] at hd hs
  have there : d.get? (place ++ [name]) ≠ none := fun hn => by
    cases (get?_below_missing hn more).symm.trans hd
  refine there (Node.look_eq_none.mp ((h.cleared _ fun seat hseat => ?_).symm.trans
    (Node.look_eq_none.mpr stops.missing)))
  cases hs.symm.trans hseat
  intro hpre
  have := hpre.length_le
  simp only [List.length_append, List.length_singleton] at this
  omega

/-- Where the first path has stopped, and what it has named in the beginning. -/
theorem stopped : ∃ up name rest place es, names = up ++ name :: rest ∧ gone.Stops up place name ∧
    full.get? (place ++ [name]) = some (.dir es) ∧
    ((rest = [] ∧ d.lookupParent [] p = .ok (place, .name name false)) ∨
      (rest ≠ [] ∧ d.seat [] p = none)) := by
  obtain ⟨up, name, rest, place, hparts, stops, es, made⟩ := h.stops
  rw [hp.eq, parts_ofNames hp.proper] at hparts
  refine ⟨up, name, rest, place, es, hparts, stops, made, ?_⟩
  by_cases hrest : rest = []
  case neg => exact .inr ⟨hrest, h.unseated hp straight hparts hrest stops made⟩
  obtain ⟨dest, leads⟩ := straight.leads
  obtain ⟨check, -⟩ := leadsTo_iff.mp leads
  obtain ⟨rfl, proper⟩ := hp
  subst hrest hparts
  exact .inl ⟨rfl, (lookupParent_ofNames proper).mpr ⟨check, stops.fits, stops.way.keeps h.ways⟩⟩

/-- Nothing is left where the first path has led. -/
theorem vacant {seat : Place} (hs : d.seat [] p = some seat) (below : Place) :
    gone.get? (seat ++ below) = none := by
  obtain ⟨up, name, rest, place, es, -, stops, -, ⟨rfl, named⟩ | ⟨-, unseated⟩⟩ :=
    h.stopped hp straight
  · cases hs.symm.trans (seat_of_lookupParent named)
    exact get?_below_missing stops.missing below
  · cases hs.symm.trans unseated

/-- What is left has not changed. -/
theorem look {q : Place} {face : Node} (hq : gone.look q = some face) :
    d.Off p q ∧ d.look q = some face := by
  have off : d.Off p q := by
    rintro seat hs ⟨below, rfl⟩
    cases (Node.look_eq_none.mpr (h.vacant hp straight hs below)).symm.trans hq
  exact ⟨off, (h.cleared q off).symm.trans hq⟩

/-- The way to where the first path has stopped does not go through what is dropped. -/
theorem common (hstale : Written stale (out ++ [last])) (hnames : names = up ++ name :: rest)
    (stops : gone.Stops up place name) :
    ∃ c : Disk, c.root.Way up place ∧
      ∀ q face, c.look q = some face → gone.look q = some face ∧ d.Off stale q := by
  obtain ⟨rfl, proper⟩ := hp
  obtain ⟨rfl, properStale⟩ := hstale
  cases hs : d.seat [] (.ofNames (out ++ [last])) with
  | none =>
    exact ⟨gone, stops.way, fun q face hq => ⟨hq, fun seat h => by cases hs.symm.trans h⟩⟩
  | some o =>
    have seated := seat_keeps h.undone (straight.staleSeated o hs)
    obtain ⟨parent, rfl, hp⟩ := (seat_ofNames properStale).mp seated
    obtain ⟨-, without⟩ := h.dropped.without h.form' hp
    obtain ⟨dest, leads⟩ := straight.leads
    obtain ⟨-, whole⟩ := leadsTo_iff.mp leads
    rw [parts_ofNames proper, hnames] at whole
    obtain ⟨place', way⟩ := whole.upTo ⟨name, List.mem_cons_self, stops.proper.nonempty⟩
    obtain ⟨es, hc⟩ := stops.way
    obtain ⟨es', hc'⟩ := way
    refine ⟨gone.erase (parent ++ [last]), chase_common h.enlarged.grows.keepsWays h.undone
      (fun q face hq hq' => ?_) hc hc', fun q face hq => ?_⟩
    · refine (look_erase fun hpre => ?_).trans hq
      obtain ⟨below, rfl⟩ := hpre
      cases (Node.look_eq_none.mpr (without.gone below)).symm.trans hq'
    · have off : ¬ parent ++ [last] <+: q := by
        rintro ⟨below, rfl⟩
        have none := get?_erase_below (p := parent ++ [last]) h.form (by simp) below
        have none := Node.look_eq_none.mpr none
        cases none.symm.trans hq
      exact ⟨(look_erase off).symm.trans hq, fun seat h => Option.some.inj (hs.symm.trans h) ▸ off⟩

/-- What the first path names can be removed on both disks, or it is missing on both of them. -/
theorem removal (hstale : Written stale (out ++ [last])) (alike : AlikeBut p stale d d') :
    (∃ parent name, d.Names [] p parent name ∧ d'.Names [] p parent name) ∨
      d.seat [] p = none ∧ d.stat [] false p = .error .noEntry ∧
        d'.stat [] false p = .error .noEntry := by
  obtain ⟨dest, leads⟩ := straight.leads
  obtain ⟨check, -⟩ := leadsTo_iff.mp leads
  obtain ⟨up, name, rest, place, es, hnames, stops, made, cases⟩ := h.stopped hp straight
  obtain ⟨c, way, seen⟩ := h.common hp straight hstale hnames stops
  have view {q : Place} {face : Node} (hq : c.look q = some face) : c.root.view q = d'.root.view q := by
    obtain ⟨there, off⟩ := seen q face hq
    obtain ⟨aside, same⟩ := h.look hp straight there
    refine (Node.view_of_look (hq.trans same.symm)).trans (alike.same q aside fun hs => ?_)
    exact off q hs List.prefix_rfl
  rcases cases with ⟨rfl, named⟩ | ⟨hrest, unseated⟩
  · left
    have apart {q : Place} {face : Node} (hq : gone.look q = some face) : ¬ place ++ [name] <+: q :=
      (h.look hp straight hq).1 _ (seat_of_lookupParent named)
    have named' {x : Disk} (ways : x.root.Way up place) :
        x.lookupParent [] p = .ok (place, .name name false) := by
      obtain ⟨rfl, proper⟩ := hp
      subst hnames
      exact (lookupParent_ofNames proper).mpr ⟨check, stops.fits, ways⟩
    refine ⟨place, name, ⟨named, named' (stops.way.keeps (.of_look fun q face hq => ?_))⟩,
      named' (way.keeps (Node.keepsWays_of_view fun q face hq => view hq)),
      named' (way.keeps (Node.keepsWays_of_view fun q face hq => (view hq).trans ?_))⟩
    · exact (look_erase (apart hq)).trans (h.look hp straight hq).2
    · exact (Node.view_of_look (look_erase (apart (seen q face hq).1))).symm
  · right
    have whole := hnames ▸ hp.proper
    have missing : d.get? (place ++ [name]) = none :=
      Node.look_eq_none.mp ((h.cleared _ fun seat hs => by cases unseated.symm.trans hs).symm.trans
        (Node.look_eq_none.mpr stops.missing))
    have elsewhere : d.seat [] stale ≠ some (place ++ [name]) := by
      intro hs
      have seated := seat_keeps h.undone (straight.staleSeated _ hs)
      obtain ⟨rfl, properStale⟩ := hstale
      obtain ⟨parent, heq, hp⟩ := (seat_ofNames properStale).mp seated
      obtain ⟨noDir, -⟩ := h.dropped.without h.form' hp
      exact noDir es (heq ▸ made)
    have off : d.Off p (place ++ [name]) := fun seat hs => by cases unseated.symm.trans hs
    have missing' : d'.get? (place ++ [name]) = none :=
      Node.missing_of_view (alike.same _ off elsewhere) missing
    have stopped {x : Disk} (ways : x.root.Way up place) (missing : x.get? (place ++ [name]) = none) :
        x.stat [] false p = .error .noEntry := by
      rw [hp.eq, hnames] at check ⊢
      have here : x.Stops up place name := ⟨stops.proper, stops.fits, ways, missing⟩
      exact here.stat (fun n hn => whole n (by simp [hn])) hrest check
        (fun n hn => whole n (by simp [hn])) false
    exact ⟨unseated, stopped (stops.way.keeps h.ways) missing,
      stopped (way.keeps (Node.keepsWays_of_view fun q face hq => view hq)) missing'⟩

/-- When the removal is done on both disks, they lack the same directories of what comes of the first one
in the end, or of what has come of it before something is dropped at a place that was not there before. -/
theorem parallel (hstale : Written stale (out ++ [last])) (alike : AlikeBut p stale d d') :
    ∃ plan : Disk, e.root.KeepsWays plan.root ∧ ∀ g g',
      d.Left (d.Off p) g → d'.Left (d.Off p) g' →
        Parallel (d.Off stale) plan g g' := by
  have left {g : Disk} (hg : d.Left (d.Off p) g) (q : Place) : g.look q = gone.look q := by
    by_cases off : d.Off p q
    · exact (hg.same q off).trans (h.cleared q off).symm
    · obtain ⟨seat, hs, below, rfl⟩ : ∃ seat, d.seat [] p = some seat ∧ seat <+: q := by
        simpa [Off] using off
      exact (Node.look_eq_none.mpr (hg.gone _ off)).trans
        (Node.look_eq_none.mpr (h.vacant hp straight hs below)).symm
  have same {g g' : Disk} (hg : d.Left (d.Off p) g)
      (hg' : d'.Left (d.Off p) g') (q : Place) (aside : d.Off stale q) :
      g.root.view q = g'.root.view q := by
    by_cases off : d.Off p q
    · refine (Node.view_of_look (hg.same q off)).trans ((alike.same q off fun hs => ?_).trans
        (Node.view_of_look (hg'.same q off)).symm)
      exact aside q hs List.prefix_rfl
    · rw [Node.view_of_none (hg.gone q off), Node.view_of_none (hg'.gone q off)]
  have noDir {g' : Disk} (hg' : d'.Left (d.Off p) g') (q : Place) (es : Entries)
      (on : ¬ d.Off stale q) : g'.root.get? q ≠ some (.dir es) := by
    obtain ⟨o, hs, below, rfl⟩ : ∃ o, d.seat [] stale = some o ∧ o <+: q := by
      simpa [Off] using on
    intro hd
    obtain ⟨inner, ho⟩ := Node.dir_of_prefix (List.prefix_append o below) hd
    by_cases off : d.Off p o
    · have seen := (hg'.same o off).symm.trans (Node.look_of_get? ho)
      obtain ⟨-, inner, hd'⟩ := Node.look_eq_dir.mp seen
      exact alike.noDir o inner off hs hd'
    · cases (hg'.gone o off).symm.trans ho
  have lacks {g : Disk} (hg : d.Left (d.Off p) g) {plan : Disk} {q : Place}
      (kept : plan.look q = full.look q) :
      g.root.view q = plan.root.view q ∨ g.root.view q = none ∧ plan.root.view q = some (.dir []) := by
    rcases h.enlarged q with old | ⟨none, new⟩
    · exact .inl (Node.view_of_look ((left hg q).trans (old.symm.trans kept.symm)))
    · right
      have missing := (left hg q).trans (Node.look_eq_none.mpr none)
      obtain ⟨-, es, hd⟩ := Node.look_eq_dir.mp (kept.trans new)
      exact ⟨Node.view_of_none (Node.look_eq_none.mp missing), Node.view_of_some hd⟩
  cases hs : d.seat [] stale with
  | none =>
    have off (q : Place) : d.Off stale q := fun o ho => by cases hs.symm.trans ho
    exact ⟨full, h.undone, fun g g' hg hg' => ⟨fun q on => (on (off q)).elim,
      fun q es on => noDir hg' q es on, fun q off => same hg hg' q off, fun q _ => lacks hg rfl⟩⟩
  | some o =>
    have seated := seat_keeps h.undone (straight.staleSeated o hs)
    obtain ⟨rfl, properStale⟩ := hstale
    obtain ⟨parent, rfl, hp⟩ := (seat_ofNames properStale).mp seated
    obtain ⟨-, without⟩ := h.dropped.without h.form' hp
    have dropped := without.left hs
    exact ⟨e, .refl _, fun g g' hg hg' => ⟨fun q on => dropped.gone q on,
      fun q es on => noDir hg' q es on, fun q off => same hg hg' q off,
      fun q off => lacks hg (dropped.same q off)⟩⟩

end Renewed

/-- What names the same place before and after something is dropped there, names it on both disks. -/
theorem Parallel.seated {plan : Disk} (h : Parallel (d.Off stale) plan g g') (wf : g.root.WellFormed)
    (dropped : g.Dropped stale e) (hstale : Written stale (out ++ [last])) (hs : d.seat [] stale = some o)
    (still : e.seat [] stale = some o) : ∃ parent, o = parent ++ [last] ∧
      g.lookupParent [] stale = .ok (parent, .name last false) ∧
      g'.lookupParent [] stale = .ok (parent, .name last false) ∧
      (∀ es, g.get? o ≠ some (.dir es)) ∧ ∀ es, g'.get? o ≠ some (.dir es) := by
  obtain ⟨rfl, properStale⟩ := hstale
  obtain ⟨parent, rfl, he⟩ := (seat_ofNames properStale).mp still
  have hg := lookupParent_keeps (dropped.keepsWays wf) he
  obtain ⟨noDir, without⟩ := dropped.without wf hg
  have left := without.left hs
  have onto : e.root.KeepsWays g'.root := by
    refine Node.keepsWays_of_view fun q face hq => ?_
    have off : d.Off (.ofNames (out ++ [last])) q := Classical.byContradiction fun on => by
      cases (Node.look_eq_none.mpr (left.gone q on)).symm.trans hq
    exact (Node.view_of_look (left.same q off)).trans (Node.Parallel.same h q off)
  refine ⟨parent, rfl, hg, lookupParent_keeps onto he, noDir, fun es => ?_⟩
  exact Node.Parallel.noDir h _ es fun off => off _ hs List.prefix_rfl

/-- When the same places are dropped on both disks, what is left is alike. -/
theorem Parallel.alike {plan x x' : Disk} (h : Parallel (d.Off stale) plan g g')
    (hx : g.Left (d.Off stale) x) (hx' : g'.Left (d.Off stale) x') : x.Alike x' := by
  intro q
  by_cases off : d.Off stale q
  · exact (Node.view_of_look (hx.same q off)).trans ((Node.Parallel.same h q off).trans
      (Node.view_of_look (hx'.same q off)).symm)
  · rw [Node.view_of_none (hx.gone q off), Node.view_of_none (hx'.gone q off)]

end Disk

end LayerPack
