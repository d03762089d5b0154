import LayerPack.Proofs.Pipeline.Dist

/-! A workspace that has been prepared. Whatever its path has named is gone, links with it and not what they
lead to; in its place stands a directory that holds two empty ones; and all that is new elsewhere are
directories on the way to it. When it is removed again, nothing is left of it, and there is nothing to
remove any more. -/
namespace LayerPack

open Program Machine

namespace Disk

variable {d d' d'' : Disk} {cwd place base parent : Place} {made p : Path} {front : List Bytes} {name : Name}
  {up names rest more : List Name} {known : List Name → Prop}

/-- Directories have been made at known places from one on, and nothing else is there or has changed. -/
structure Built (base : Place) (known : List Name → Prop) (d d' : Disk) : Prop where
  elsewhere : d.ChangedAt base d'
  inside : ∀ more face, d'.look (base ++ more) = some face → face = .dir [] ∧ known more

theorem built_of_missing (missing : d.get? base = none) : d.Built base known d where
  elsewhere _ _ := rfl
  inside more face hl := by
    cases (Node.look_eq_none.mpr (get?_below_missing missing more)).symm.trans hl

/-- The path names this place, whatever is put there. -/
def Seated (d : Disk) (p : Path) (place : Place) : Prop := ∃ parent name, place = parent ++ [name] ∧
  ∀ d' : Disk, d.ChangedAt place d' → d'.lookupParent [] p = .ok (parent, .name name false)

namespace Seated

variable {d₁ : Disk} (h : d.Seated p place)

include h

theorem shift (same : d.ChangedAt place d₁) : d₁.Seated p place := by
  obtain ⟨parent, name, rfl, hp⟩ := h
  exact ⟨parent, name, rfl, fun x hx => hp x (same.trans hx)⟩

theorem resolve : d.resolve [] false p = match d.get? place with
    | some node => .ok (place, node)
    | none => .error .noEntry := by
  obtain ⟨parent, name, rfl, hp⟩ := h
  exact resolve_entry (hp d fun _ _ => rfl)

theorem named (absolute : p.isAbsolute) :
    ∃ parent name, place = parent ++ [name] ∧ d.Names cwd p parent name := by
  obtain ⟨parent, name, rfl, hp⟩ := h
  refine ⟨parent, name, rfl, Names.absolute ⟨hp d fun _ _ => rfl, hp _ fun q hq => ?_⟩ absolute cwd⟩
  exact look_erase hq

end Seated

namespace Built

theorem ways (h : d.Built base known d') (missing : d.get? base = none) : d.root.KeepsWays d'.root :=
  h.elsewhere.keepsWays (noWay_of_none missing)

theorem noLink (h : d.Built base known d') (more : List Name) (target : Bytes) :
    d'.get? (base ++ more) ≠ some (.link target) := fun hg => by
  cases (h.inside more _ (Node.look_eq_link.mpr hg)).1

/-- What stands at a known place is a directory. -/
theorem dir (h : d.Built base known d') {node : Node} (hg : d'.get? (base ++ more) = some node) :
    known more ∧ ∃ es, node = .dir es := by
  obtain ⟨hf, hk⟩ := h.inside more _ (congrArg (Option.map Node.face) hg)
  cases node with
  | dir es => exact ⟨hk, es, rfl⟩
  | file | link => cases hf

/-- One more directory at a known place. -/
theorem put {es : Entries} (h : d.Built base known d') (hp : d'.get? parent = some (.dir es))
    (at_ : parent ++ [name] = base ++ more) (hk : known more) :
    d.Built base known (d'.put (parent ++ [name]) (.dir [])) where
  elsewhere := h.elsewhere.trans fun q hq => look_put fun hpre =>
    hq ((at_ ▸ List.prefix_append base more).trans hpre)
  inside other face hl := by
    by_cases hpre : parent ++ [name] <+: base ++ other
    · obtain ⟨below, hbelow⟩ := hpre
      obtain ⟨node, hg, rfl⟩ := Option.map_eq_some_iff.mp hl
      rw [get?_root, ← hbelow, get?_put_below hp] at hg
      cases below with
      | cons => cases hg
      | nil =>
        cases hg
        rw [List.append_nil, at_] at hbelow
        exact ⟨rfl, List.append_cancel_left hbelow ▸ hk⟩
    · exact h.inside other face ((look_put hpre).symm.trans hl)

/-- Where a path has come from the first of the directories on. -/
theorem onward (h : d.Built (place ++ [name]) known d') (stops : d.Stops front place name)
    (proper : ∀ n ∈ more, ProperName n) (way : d'.root.Way (front ++ name :: more) parent) :
    parent = place ++ [name] ++ more := by
  have before := stops.way.keeps (h.ways stops.missing)
  obtain ⟨es, hd⟩ : ∃ es, d'.get? (place ++ [name]) = some (.dir es) := by
    cases hg : d'.get? (place ++ [name]) with
    | none => exact (before.not_of_missing stops.proper hg way).elim
    | some node =>
      obtain ⟨-, es, rfl⟩ := h.dir ((congrArg d'.get? (List.append_nil _)).trans hg)
      exact ⟨es, rfl⟩
  rw [List.append_cons] at way
  exact (before.child stops.proper stops.fits hd).onward way (Path.componentsOf_names proper) h.noLink

/-- The directories that are made along a path from where it has stopped are at known places. -/
theorem mkdir (h : d.Built (place ++ [name]) known d') (stops : d.Stops front place name)
    (proper : ∀ n ∈ names, ProperName n) (within : ∀ more, more <+: names → known more)
    (absolute : made.isAbsolute) (along : made.parts <+: front ++ name :: names)
    (hop : d'.mkdir cwd made = .ok d'') : d.Built (place ++ [name]) known d'' := by
  obtain ⟨up, last, parent, hparts, hn, -, way, missing, rfl⟩ := mkdir_way absolute hop
  obtain ⟨es, hp⟩ := way.dir
  have before := stops.way.keeps (h.ways stops.missing)
  rw [hparts] at along
  by_cases hpre : up ++ [last] <+: front
  · -- On its way to where it has stopped the path leads on.
    obtain ⟨rest, rfl⟩ := hpre
    rw [List.append_assoc, List.singleton_append] at before
    exact (way.not_of_missing hn missing before).elim
  obtain ⟨more, hmore⟩ := (List.prefix_or_prefix_of_prefix along (List.prefix_append _ _)).resolve_left hpre
  have below : more <+: name :: names := (List.prefix_append_right_inj front).mp (hmore ▸ along)
  obtain ⟨inner, last', rfl⟩ := (List.eq_nil_or_concat more).resolve_left (by
    rintro rfl
    exact hpre ⟨[], by rw [← hmore, List.append_nil, List.append_nil]⟩)
  rw [List.concat_eq_append] at hmore below
  rw [← List.append_assoc] at hmore
  obtain ⟨rfl, hlast⟩ := List.append_inj' hmore rfl
  obtain rfl := List.head_eq_of_cons_eq hlast
  cases inner with
  | nil =>
    obtain rfl := (List.cons_prefix_cons.mp below).1
    rw [List.append_nil] at way
    obtain rfl := before.unique way
    exact h.put hp (List.append_nil _).symm (within [] List.nil_prefix)
  | cons first inner =>
    obtain ⟨rfl, inside⟩ := List.cons_prefix_cons.mp below
    have proper : ∀ n ∈ inner, ProperName n := fun n hn =>
      proper n (inside.subset (List.mem_append_left _ hn))
    obtain rfl := h.onward stops proper way
    exact h.put hp (List.append_assoc _ _ _) (within _ inside)

/-- Where a path leads that goes on by names to a directory, when directories have been made along it, it
names that directory. -/
theorem seated {dest : Place} (h : d.Built (place ++ [name]) known d') (stops : d.Stops up place name)
    (proper : ∀ n ∈ up ++ name :: names, ProperName n)
    (leads : d'.LeadsTo (.ofNames (up ++ name :: names)) dest) :
    dest = place ++ name :: names ∧ d'.Seated (.ofNames (up ++ name :: names)) dest := by
  obtain ⟨check, way⟩ := leadsTo_iff.mp leads
  rw [parts_ofNames proper] at way
  obtain rfl : dest = place ++ name :: names := by
    rw [List.append_cons]
    exact h.onward stops (fun n hn => proper n (by simp [hn])) way
  obtain ⟨inner, last, hinner⟩ : ∃ inner last, name :: names = inner ++ [last] :=
    ⟨_, _, (List.dropLast_concat_getLast (List.cons_ne_nil name names)).symm⟩
  refine ⟨rfl, place ++ inner, last, by rw [hinner, List.append_assoc], fun x same => ?_⟩
  obtain ⟨es, there⟩ := leads.dir
  have fits : ∀ n ∈ inner ++ [last], n.length ≤ maxName := by
    intro n hn
    obtain ⟨before, after, hsplit⟩ := List.append_of_mem hn
    rw [hinner, hsplit, ← List.append_assoc] at way
    exact way.fits (proper n (by rw [hinner, hsplit]; simp))
  -- The way to where the path has stopped is still there.
  have start : x.root.Way up place := by
    refine stops.way.keeps (.of_look fun q face hq => ?_)
    have aside : ¬ place ++ [name] <+: q := by
      rintro ⟨more, rfl⟩
      cases (Node.look_eq_none.mpr (get?_below_missing stops.missing more)).symm.trans hq
    have inside : place ++ [name] <+: place ++ name :: names := ⟨names, (List.append_cons _ _ _).symm⟩
    exact (same q fun hpre => aside (inside.trans hpre)).trans ((h.elsewhere q aside).trans hq)
  obtain ⟨es', below⟩ : ∃ es', x.get? (place ++ inner) = some (.dir es') := by
    have before : d'.get? (place ++ inner ++ [last]) = some (.dir es) := by
      rwa [List.append_assoc, ← hinner]
    obtain ⟨es', hd⟩ := Node.dir_of_get?_append before
    have kept : x.look (place ++ inner) = d'.look (place ++ inner) := same _ fun hpre => by
      have := hpre.length_le
      rw [hinner] at this
      simp only [List.length_append, List.length_singleton] at this
      omega
    exact (Node.look_eq_dir.mp (kept.trans (Node.look_of_get? hd))).2
  rw [hinner, ← List.append_assoc] at proper check ⊢
  refine (lookupParent_ofNames proper).mpr ⟨check, fits last (by simp), ?_⟩
  exact start.descend (fun n hn => proper n (by simp [hn])) (fun n hn => fits n (by simp [hn])) below

end Built

end Disk

namespace Workspace

/-- The names from where a path has stopped to what is made when a workspace is made at its end. -/
def Along (rest more : List Name) : Prop := ∃ made ∈ furniture, more <+: rest ++ made

/-- At the end of the path only the directories of a workspace are made. -/
theorem Along.furniture {rest below : List Name} (h : Along rest (rest ++ below)) : below ∈ furniture := by
  obtain ⟨made, hm, hpre⟩ := h
  have hpre := (List.prefix_append_right_inj rest).mp hpre
  simp only [Workspace.furniture, List.mem_cons, List.not_mem_nil, or_false] at hm ⊢
  have single {name : Name} (h : below <+: [] ++ [name]) : below = [] ∨ below = [name] :=
    (List.prefix_concat_iff.mp h).symm.imp_left List.prefix_nil.mp
  rcases hm with rfl | rfl | rfl
  · exact .inl (List.prefix_nil.mp hpre)
  · exact (single hpre).imp_right .inl
  · exact (single hpre).imp_right .inr

variable {s : Settings} {o : Outside} {m m₁ : Machine}

/-- What is made for a workspace is made from where its path has stopped. -/
theorem furnish_builds (laid : s.Laid) (removed : Bool) (deadline : Option Nat) :
    (furnish s.workspace (.ok removed) deadline).Ends (answer o) m fun _ _ n =>
      ∀ up name rest place, s.workspace.names = up ++ name :: rest → m.disk.Stops up place name →
        m.disk.Built (place ++ [name]) (Along rest) n.disk := by
  refine furnish_inv (I := fun n : Machine => ∀ up name rest place,
    s.workspace.names = up ++ name :: rest → m.disk.Stops up place name →
      m.disk.Built (place ++ [name]) (Along rest) n.disk)
    (fun _ _ _ _ _ stops => Disk.built_of_missing stops.missing) ?_ _ deadline
  intro child hc q n h built up name rest place hnames stops
  have built := built up name rest place hnames stops
  have hn := properName_child hc
  rcases h with h | ⟨made, above, rfl⟩
  · rw [(same_quiet h o n).disk]
    exact built
  rcases changed_mkdir o n made with ⟨-, hop, -⟩ | ⟨-, same⟩
  · obtain ⟨_, -, spells⟩ := above.spells (laid.workspace.child hn)
    have along := Disk.parts_of_above above
    rw [laid.child_parts hn, hnames, List.append_assoc, List.cons_append] at along
    have proper : ∀ n ∈ rest ++ [child], ProperName n := by
      intro n hm
      rcases List.mem_append.mp hm with hm | hm
      · exact laid.workspace.proper n (by rw [hnames]; simp [hm])
      · exact List.mem_singleton.mp hm ▸ hn
    exact built.mkdir stops proper (fun more hmore => ⟨[child], by simpa [furniture] using hc, hmore⟩)
      spells.absolute along hop
  · rw [same.disk]
    exact built

/-- What is left of what a path has named when it was removed, if anything, is above where the path stops. -/
theorem above_of_vacated {p : Path} {up rest : List Name} {name : Name} {place q : Place}
    (vacated : Vacated p m m₁) (hp : Disk.Written p (up ++ name :: rest))
    (stops : m₁.disk.Stops up place name) (on : ¬ m.disk.Off p q) (there : m₁.disk.get? q ≠ none) :
    q <+: place := by
  obtain ⟨seat, hseat, more, rfl⟩ : ∃ seat, m.disk.seat [] p = some seat ∧ seat <+: q := by
    simpa [Disk.Off] using on
  -- It is the entry itself, which has been emptied.
  obtain rfl : more = [] := by
    cases more with
    | nil => rfl
    | cons first more => exact (there (vacated.emptied seat hseat first more)).elim
  rw [List.append_nil] at there ⊢
  have missing : seat ≠ place ++ [name] := by
    rintro rfl
    exact there stops.missing
  by_contra aside
  have off : ¬ seat <+: place ++ [name] := fun hpre =>
    (List.prefix_concat_iff.mp hpre).elim missing aside
  have before : m.disk.get? (place ++ [name]) = none := by
    refine Node.look_eq_none.mp ((vacated.cleared _ fun seat' hs => ?_).symm.trans
      (Node.look_eq_none.mpr stops.missing))
    exact Option.some.inj (hseat.symm.trans hs) ▸ off
  obtain ⟨rfl, proper⟩ := hp
  obtain ⟨inner, last, hinner⟩ : ∃ inner last, name :: rest = inner ++ [last] :=
    ⟨_, _, (List.dropLast_concat_getLast (List.cons_ne_nil name rest)).symm⟩
  rw [hinner, ← List.append_assoc] at proper hseat
  obtain ⟨parent, rfl, hparent⟩ := (Disk.seat_ofNames proper).mp hseat
  obtain ⟨-, -, way⟩ := (Disk.lookupParent_ofNames proper).mp hparent
  have start := stops.way.keeps vacated.ways
  cases inner with
  | nil =>
    rw [List.append_nil] at way
    obtain rfl := start.unique way
    obtain ⟨rfl, -⟩ := List.cons.inj hinner
    exact missing rfl
  | cons first inner =>
    obtain ⟨rfl, -⟩ := List.cons.inj hinner
    exact start.not_of_missing stops.proper before way

/-- What the preparation of a workspace has made of a disk. The path leads, not by a link at its end, to a
directory that holds two empty ones and nothing else. What was outside of the old workspace is as it was, and
all that is there besides are directories on the way to the new one and in it. -/
structure Prepared (root : Path) (d d' : Disk) (place : Place) : Prop where
  there : ∃ es, d'.resolve [] false root = .ok (place, .dir es) ∧
    es.Perm [(Bytes.ofString "dist", .dir []), (Bytes.ofString "target", .dir [])]
  kept : ∀ q, d.Off root q → d.get? q ≠ none → d'.look q = d.look q
  rest : ∀ q, d'.get? q ≠ none → d.Off root q ∧ d'.look q = d.look q ∨
    d'.look q = some (.dir []) ∧ (q <+: place ∨ place <+: q)
  form : d'.root.WellFormed

section

variable {d d' : Disk} {base place : Place} {name : Name} {up rest : List Name} {root : Path}

/-- Of the directories that have been made for a workspace, the last ones are its entries. -/
theorem entries_of_built (built : d.Built base (Along rest) d') (wf : d'.root.WellFormed)
    (there : ∀ child ∈ [Bytes.ofString "dist", Bytes.ofString "target"],
      ∃ es, d'.get? (base ++ (rest ++ [child])) = some (.dir es)) :
    ∃ es, d'.get? (base ++ rest) = some (.dir es) ∧
      es.Perm [(Bytes.ofString "dist", .dir []), (Bytes.ofString "target", .dir [])] := by
  have empty : ∀ child ∈ [Bytes.ofString "dist", Bytes.ofString "target"],
      d'.get? (base ++ rest ++ [child]) = some (.dir []) := by
    intro child hc
    obtain ⟨es, hg⟩ := there child hc
    cases es with
    | nil => rwa [List.append_assoc]
    | cons e es =>
      have inner : d'.get? (base ++ (rest ++ [child]) ++ [e.1]) = some e.2 := by
        rw [← Disk.get?_root, Node.get?_name hg]
        exact if_pos rfl
      rw [List.append_assoc, List.append_assoc] at inner
      have known := (built.dir inner).1.furniture
      simp [furniture] at known
  obtain ⟨es, hg⟩ := Node.dir_of_get?_append (empty _ List.mem_cons_self)
  have nodup : (es.map (·.1)).Nodup := by
    cases wf.get? hg
    assumption
  refine ⟨es, hg, (List.perm_ext_iff_of_nodup (.of_map _ nodup) (.of_map Prod.fst (by decide))).mpr ?_⟩
  rintro ⟨child, node⟩
  have named (child : Name) : Entries.find? es child = d'.get? (base ++ rest ++ [child]) :=
    (Node.get?_name hg child).symm
  constructor
  · intro he
    have inner := (named child).symm.trans (Entries.find?_of_mem nodup he)
    rw [List.append_assoc] at inner
    have known := (built.dir inner).1.furniture
    rw [← List.append_assoc] at inner
    simp only [furniture, List.mem_cons, List.not_mem_nil, or_false, List.cons.injEq, and_true,
      List.cons_ne_nil, false_or] at known
    rcases known with rfl | rfl
    · cases inner.symm.trans (empty _ (by simp))
      simp
    · cases inner.symm.trans (empty _ (by simp))
      simp
  · simp only [List.mem_cons, List.not_mem_nil, or_false, Prod.mk.injEq]
    rintro (⟨rfl, rfl⟩ | ⟨rfl, rfl⟩)
    · exact Entries.mem_of_find? ((named _).trans (empty _ (by simp)))
    · exact Entries.mem_of_find? ((named _).trans (empty _ (by simp)))

theorem prepared_of_built (vacated : Vacated root m m₁) (hp : Disk.Written root (up ++ name :: rest))
    (stops : m₁.disk.Stops up place name) (built : m₁.disk.Built (place ++ [name]) (Along rest) d')
    (wf : d'.root.WellFormed) (leads : ∃ dest, d'.LeadsTo root dest)
    (there : ∀ child ∈ [Bytes.ofString "dist", Bytes.ofString "target"],
      ∃ es, d'.get? (place ++ [name] ++ (rest ++ [child])) = some (.dir es)) :
    ∃ place, Prepared root m.disk d' place ∧ d'.Seated root place := by
  obtain ⟨dest, leads⟩ := leads
  obtain ⟨rfl, seated⟩ := built.seated stops hp.proper (hp.eq ▸ leads)
  rw [← hp.eq] at seated
  refine ⟨_, ⟨?_, fun q off there => ?_, fun q there => ?_, wf⟩, seated⟩
  · obtain ⟨es, hg, perm⟩ := entries_of_built built wf there
    rw [← List.append_cons] at hg
    refine ⟨es, ?_, perm⟩
    rw [seated.resolve, hg]
  · have old : m₁.disk.look q = m.disk.look q := vacated.cleared q off
    refine (built.elsewhere q ?_).trans old
    rintro ⟨below, rfl⟩
    refine there (Node.look_eq_none.mp (old.symm.trans (Node.look_eq_none.mpr ?_)))
    exact Disk.get?_below_missing stops.missing below
  · obtain ⟨node, hg⟩ := Option.ne_none_iff_exists'.mp there
    by_cases below : place ++ [name] <+: q
    · obtain ⟨more, rfl⟩ := below
      obtain ⟨⟨made, -, hmore⟩, es, rfl⟩ := built.dir hg
      refine .inr ⟨Node.look_of_get? hg, ?_⟩
      rw [List.append_cons place name rest]
      exact (List.prefix_or_prefix_of_prefix hmore (List.prefix_append rest made)).imp
        (List.prefix_append_right_inj _).mpr (List.prefix_append_right_inj _).mpr
    · have same := built.elsewhere q below
      by_cases off : m.disk.Off root q
      · exact .inl ⟨off, same.trans (vacated.cleared q off)⟩
      · have left : m₁.disk.get? q ≠ none := fun hn =>
          there (Node.look_eq_none.mp (same.trans (Node.look_eq_none.mpr hn)))
        have above := above_of_vacated vacated hp stops off left
        obtain ⟨es, hd⟩ := stops.way.dir
        obtain ⟨es', hq⟩ := Node.dir_of_prefix above hd
        exact .inr ⟨same.trans (Node.look_of_get? hq), .inl (above.trans (List.prefix_append _ _))⟩

end

/-- Where the removal of the old workspace has succeeded, a fresh one is made. -/
theorem furnish_prepares (laid : s.Laid) (placed : s.Placed) (vacated : Vacated s.workspace m m₁)
    (removed : Bool) (deadline : Option Nat) :
    (furnish s.workspace (.ok removed) deadline).Ends (answer o) m₁ fun r _ n => ∀ w, r = .ok w →
      ∃ place, Prepared s.workspace m.disk n.disk place ∧ n.disk.Seated s.workspace place := by
  refine ((furnish_refills laid placed vacated.missing vacated.form removed deadline).and
    ((furnish_builds laid removed deadline).and (furnish_leads placed removed deadline))).mono ?_
  rintro r _ n ⟨refilled, builds, leads⟩ w hr
  obtain ⟨up, name, rest, place, hparts, stops, -⟩ := (refilled w hr).stops
  rw [laid.workspace_parts] at hparts
  have built := builds up name rest place hparts stops
  have written : Disk.Written s.workspace (up ++ name :: rest) :=
    hparts ▸ ⟨laid.written.1, laid.workspace.proper⟩
  have there {child : Name} (hn : ProperName child)
      (reached : ∃ dest, n.disk.LeadsTo (s.workspace.child child) dest) :
      (∃ dest, n.disk.LeadsTo s.workspace dest) ∧
        ∃ es, n.disk.get? (place ++ [name] ++ (rest ++ [child])) = some (.dir es) := by
    obtain ⟨dest, reached⟩ := reached
    obtain ⟨root, above, -⟩ := (laid.child_extends hn).leadsTo laid.workspace.absolute reached
    obtain ⟨-, way⟩ := Disk.leadsTo_iff.mp reached
    rw [laid.child_parts hn, hparts, List.append_assoc, List.cons_append] at way
    obtain rfl := built.onward stops (fun c hc => (List.mem_append.mp hc).elim
      (fun h => written.proper c (by simp [h])) fun h => List.mem_singleton.mp h ▸ hn) way
    exact ⟨⟨root, above⟩, way.dir⟩
  have dist := there properName_dist (leads w hr _ List.mem_cons_self)
  have target := there properName_target (leads w hr s.tree (by simp))
  refine prepared_of_built vacated written stops built (refilled w hr).form' dist.1 fun child hc => ?_
  simp only [List.mem_cons, List.not_mem_nil, or_false] at hc
  rcases hc with rfl | rfl
  · exact dist.2
  · exact target.2

/-- The root of the disk is no workspace. -/
theorem prepare_atRoot (honest : o.Honest) (deadline : Option Nat) :
    (prepare (.ofNames []) deadline).Ends (answer o) m fun r _ _ => ∀ w, r ≠ .ok w := by
  rw [prepare_eq]
  refine Work.ends_bind.mpr (ends_await (fun _ _ _ _ h => by cases h) fun m₁ _ => ?_)
  refine (Files.removePath_removes honest).mono fun removed _ m₂ removes _ m₃ _ _ => ?_
  refine ⟨?_, fun _ h => by cases h⟩
  cases removed with
  | error e => exact Work.ends_bind.mpr (Work.ends_ofExcept.mpr fun _ h => by cases h)
  | ok removed => exact (Disk.not_removed_root (removes (.inl ⟨removed, rfl⟩)).1).elim

/-- The machine when a workspace has been removed. -/
def cleaned (o : Outside) (w : Workspace) (m : Machine) : Machine := (Machine.run o w.cleanup m).2

/-- When a workspace has been removed, nothing is left of it, all else is as it was, and however often it is
removed again, nothing changes any more. If no request fails on its own, every removal succeeds. -/
structure Removable (o : Outside) (w : Workspace) (place : Place) (m : Machine) : Prop where
  removes : (Machine.run o w.cleanup m).1 = .ok () →
    m.disk.Without place (cleaned o w m).disk ∧ (cleaned o w m).Missing w.root ∧
      ∀ k, ((cleaned o w)^[k + 1] m).disk = (cleaned o w m).disk
  succeeds : (∀ n, o.fault n = none) → ∀ k, (Machine.run o w.cleanup ((cleaned o w)^[k] m)).1 = .ok ()

theorem removable_of_seated {d : Disk} {root : Path} {place : Place} (seated : d.Seated root place)
    (absolute : root.isAbsolute) (honest : o.Honest) (wf : m.disk.root.WellFormed)
    (same : d.ChangedAt place m.disk) : Removable o ⟨root⟩ place m := by
  have here := seated.shift same
  obtain ⟨parent, name, rfl, named⟩ := here.named absolute
  -- Once nothing is left at the place, nothing is found there.
  have lost (n : Machine) (h : m.disk.Without (parent ++ [name]) n.disk) :
      n.disk.stat n.cwd false root = .error .noEntry := by
    have none := h.gone []
    rw [List.append_nil] at none
    rw [Disk.stat, Disk.resolve_absolute absolute n.cwd [], (here.shift h.same).resolve, none]
    rfl
  have again (n : Machine) (h : m.disk.Without (parent ++ [name]) n.disk) :
      (cleaned o ⟨root⟩ n).disk = n.disk :=
    (Ends.bind (Files.removePath_same (lost n h)) fun _ _ _ same => same : (cleanup ⟨root⟩).Ends
      (answer o) n fun _ _ l => Same n l).disk
  have after (h : m.disk.Without (parent ++ [name]) (cleaned o ⟨root⟩ m).disk) (k : Nat) :
      ((cleaned o ⟨root⟩)^[k + 1] m).disk = (cleaned o ⟨root⟩ m).disk := by
    induction k with
    | zero => rfl
    | succ k ih =>
      rw [Function.iterate_succ_apply', again _ (ih.symm ▸ h), ih]
  refine ⟨fun done => ?_, fun sound => ?_⟩
  · have removes : (cleanup ⟨root⟩).Ends (answer o) m fun r _ n => r = .ok () →
        m.disk.Removed m.cwd root n.disk := by
      refine Ends.bind (Files.removePath_removes honest) fun r _ n removes => ?_
      cases r with
      | error e => exact fun h => by cases h
      | ok removed => exact fun _ => (removes (.inl ⟨removed, rfl⟩)).1
    have without := named.removed wf (removes done)
    refine ⟨without, fun found h => ?_, after without⟩
    have missing := lost (cleaned o ⟨root⟩ m) without
    rw [Disk.stat, h] at missing
    cases missing
  · have steady := Outside.steady_of_sound sound
    obtain ⟨removed, gone, does, without⟩ := Files.does_removePath steady wf named
    have first : (cleanup ⟨root⟩).Does o ⟨false, false, 0⟩ m (.ok ()) [] gone :=
      Does.bind does fun _ _ hd => does_done hd
    obtain rfl : (cleaned o ⟨root⟩ m).disk = gone := first.2.2.2
    intro k
    cases k with
    | zero => exact first.1
    | succ k =>
      have vacant := lost ((cleaned o ⟨root⟩)^[k + 1] m) ((after without k).symm ▸ without)
      have found : (cleanup ⟨root⟩).Finds o ⟨false, false, 0⟩ ((cleaned o ⟨root⟩)^[k + 1] m) (.ok ()) :=
        Finds.bind (Files.finds_removePath steady vacant) fun _ _ _ => finds_done _
      exact found.1

/-- A workspace that has been prepared is fresh, whatever was there before, and whatever is put into it, it
can be removed. -/
theorem fresh_workspace {root : Path} (plain : root.Plain) (honest : o.Honest)
    (wf : m.disk.root.WellFormed) (deadline : Option Nat) :
    (prepare root deadline).Ends (answer o) m fun r _ n => ∀ w, r = .ok w →
      w = ⟨root⟩ ∧ ∃ place, Prepared root m.disk n.disk place ∧
        ∀ (o' : Outside) (l : Machine), o'.Honest → l.disk.root.WellFormed →
          n.disk.ChangedAt place l.disk → Removable o' w place l := by
  by_cases notRoot : root.names = []
  case pos =>
    obtain rfl : root = .ofNames [] := notRoot ▸ plain.eq_ofNames
    exact (prepare_atRoot honest deadline).mono fun _ _ _ fails w h => (fails w h).elim
  obtain ⟨s, accepted, rfl⟩ := Options.exists_workspace plain notRoot
  have prepared : (prepare s.workspace deadline).Ends (answer o) m fun r _ n => ∀ w, r = .ok w →
      ∃ place, Prepared s.workspace m.disk n.disk place ∧ n.disk.Seated s.workspace place :=
    prepare_ends accepted.laid honest wf fun _ removed vacated =>
      furnish_prepares accepted.laid accepted.placed vacated removed deadline
  have yields : (prepare s.workspace deadline).Ends (answer o) m fun r _ _ =>
      ∀ w, r = .ok w → w = ⟨s.workspace⟩ := (Pipeline.prepare_yields s.workspace deadline).run (answer o) m
  refine (prepared.and yields).mono ?_
  rintro r _ n ⟨prepared, yields⟩ w hr
  obtain ⟨place, prepared, seated⟩ := prepared w hr
  obtain rfl := yields w hr
  exact ⟨rfl, place, prepared, fun o' l honest' wf' same =>
    removable_of_seated seated plain.spells.absolute honest' wf' same⟩

set_option maxRecDepth 100000 in
/-- The old workspace is a link, and its path goes through another one. What the links lead to stays. -/
theorem linked_workspace_replaced :
    let root := Path.ofString "/up/work"
    let kept := Node.dir [(Bytes.ofString "a", .file 1 0o644 .empty)]
    let m := Machine.small [("up", .link (Bytes.ofString "/real")), ("keep", kept),
      ("real", .dir [(Bytes.ofString "work", .link (Bytes.ofString "/keep"))])]
    let o := Outside.small []
    root.Plain ∧ o.Honest ∧ m.disk.root.WellFormed ∧
    (prepare root none).Ends (answer o) m fun r _ n => r = .ok ⟨root⟩ ∧
      n.disk.get? (["real", "work"].map Bytes.ofString) =
        some (.dir [(Bytes.ofString "dist", .dir []), (Bytes.ofString "target", .dir [])]) ∧
      n.disk.look (["keep", "a"].map Bytes.ofString) = some (.file 1 0o644 .empty) ∧
      ∀ k, (Machine.run o (cleanup ⟨root⟩) ((cleaned o ⟨root⟩)^[k] n)).1 = .ok () := by
  intro root kept m o
  have plain : root.Plain := ⟨["up", "work"].map Bytes.ofString, by decide, by decide⟩
  have honest : o.Honest := fun _ h => by cases h
  have wf : m.disk.root.WellFormed := by decide +kernel
  have evaluated : (prepare root none).Ends (answer o) m fun r _ n => r = .ok ⟨root⟩ ∧
      n.disk.get? (["real", "work"].map Bytes.ofString) =
        some (.dir [(Bytes.ofString "dist", .dir []), (Bytes.ofString "target", .dir [])]) := by
    unfold Ends
    decide +kernel
  refine ⟨plain, honest, wf, ((fresh_workspace plain honest wf none).and evaluated).mono ?_⟩
  rintro _ _ n ⟨fresh, rfl, made⟩
  obtain ⟨-, place, prepared, removable⟩ := fresh _ rfl
  have seat : m.disk.seat [] root = some (["real", "work"].map Bytes.ofString) := by decide +kernel
  have off : m.disk.Off root (["keep", "a"].map Bytes.ofString) := fun found h => by
    rw [← Option.some.inj (seat.symm.trans h)]
    decide
  have there : m.disk.look (["keep", "a"].map Bytes.ofString) = some (.file 1 0o644 .empty) := by
    decide +kernel
  refine ⟨rfl, made, (prepared.kept _ off fun none => ?_).trans there, ?_⟩
  · cases there.symm.trans (Node.look_eq_none.mpr none)
  · exact (removable o n honest prepared.form fun _ _ => rfl).succeeds fun _ => rfl

end Workspace

end LayerPack
