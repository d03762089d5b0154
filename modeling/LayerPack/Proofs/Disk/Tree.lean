import LayerPack.Disk.Calls
import LayerPack.Proofs.Path.Parts

/-! What changes in a tree when one place is changed. Everything aside of the place stays as it
was, the directories above it stay directories, and at the place stands what was put there. A tree
is well formed if no directory lists a name twice and every name can be a part of a path; a change
by well-formed parts keeps that. -/
namespace LayerPack

namespace Entries

variable {es : Entries} {name other : Name} {f : Option Node → Option Node}

theorem find?_eq_none : find? es name = none ↔ name ∉ es.map (·.1) := by
  induction es with
  | nil => simp [find?]
  | cons e rest ih =>
    obtain ⟨n, node⟩ := e
    by_cases h : n = name
    · simp [find?, h]
    · simp [find?, h, Ne.symm h, ih]

theorem mem_of_find? {node : Node} (h : find? es name = some node) : (name, node) ∈ es := by
  induction es with
  | nil => cases h
  | cons e rest ih =>
    obtain ⟨n, node'⟩ := e
    rw [find?] at h
    split at h
    next hn =>
      obtain rfl := hn
      obtain rfl := Option.some.inj h
      exact List.mem_cons_self
    next => exact List.mem_cons_of_mem _ (ih h)

theorem find?_of_mem {node : Node} (nodup : (es.map (·.1)).Nodup) (h : (name, node) ∈ es) :
    find? es name = some node := by
  induction es with
  | nil => cases h
  | cons e rest ih =>
    obtain ⟨n, node'⟩ := e
    rw [List.map_cons, List.nodup_cons] at nodup
    rw [find?]
    rcases List.mem_cons.mp h with h | h
    · cases h
      simp
    · have hne : n ≠ name := by
        rintro rfl
        exact nodup.1 (List.mem_map_of_mem (f := (·.1)) h)
      rw [if_neg hne]
      exact ih nodup.2 h

theorem find?_alter_of_ne (h : other ≠ name) : find? (alter name f es) other = find? es other := by
  induction es with
  | nil =>
    rw [alter]
    cases f none with
    | none => rfl
    | some node => simp [find?, Ne.symm h]
  | cons e rest ih =>
    obtain ⟨n, node⟩ := e
    by_cases hn : n = name
    · subst hn
      rw [alter, if_pos rfl]
      cases f (some node) with
      | none => simp [find?, Ne.symm h]
      | some node' => simp [find?, Ne.symm h]
    · rw [alter, if_neg hn]
      by_cases ho : n = other
      · simp [find?, ho]
      · simp [find?, ho, ih]

/-- A name that is dropped is gone if it was listed once only. -/
theorem find?_alter_self
    (h : (es.map (·.1)).Nodup ∨ ((find? es name).isSome → (f (find? es name)).isSome)) :
    find? (alter name f es) name = f (find? es name) := by
  induction es with
  | nil =>
    rw [alter]
    cases hf : f none with
    | none => simp [find?, hf]
    | some node => simp [find?, hf]
  | cons e rest ih =>
    obtain ⟨n, node⟩ := e
    by_cases hn : n = name
    · subst hn
      rw [alter, if_pos rfl, find?, if_pos rfl] at *
      cases hf : f (some node) with
      | some node' => simp [find?]
      | none =>
        rcases h with h | h
        · rw [List.map_cons, List.nodup_cons] at h
          exact find?_eq_none.mpr h.1
        · simp [hf] at h
    · rw [alter, if_neg hn]
      simp only [find?, if_neg hn] at *
      refine ih (h.imp_left fun h => ?_)
      exact (List.nodup_cons.mp h).2

theorem mem_alter {e : Name × Node} (h : e ∈ alter name f es) :
    e ∈ es ∨ e.1 = name ∧ ∃ o, f o = some e.2 ∧ ∀ node ∈ o, (name, node) ∈ es := by
  induction es with
  | nil =>
    rw [alter] at h
    cases hf : f none with
    | none => simp [hf] at h
    | some node =>
      rw [hf] at h
      obtain rfl := List.mem_singleton.mp h
      exact .inr ⟨rfl, none, hf, fun _ h => by cases h⟩
  | cons e' rest ih =>
    obtain ⟨n, node⟩ := e'
    by_cases hn : n = name
    · subst hn
      rw [alter, if_pos rfl] at h
      cases hf : f (some node) with
      | none => exact .inl (List.mem_cons_of_mem _ (by simpa [hf] using h))
      | some node' =>
        rw [hf] at h
        rcases List.mem_cons.mp h with rfl | h
        · exact .inr ⟨rfl, some node, hf, fun _ h => by
            obtain rfl := Option.some.inj h
            exact List.mem_cons_self⟩
        · exact .inl (List.mem_cons_of_mem _ h)
    · rw [alter, if_neg hn] at h
      rcases List.mem_cons.mp h with rfl | h
      · exact .inl List.mem_cons_self
      · rcases ih h with h | ⟨he, o, ho, hm⟩
        · exact .inl (List.mem_cons_of_mem _ h)
        · exact .inr ⟨he, o, ho, fun node h => List.mem_cons_of_mem _ (hm node h)⟩

theorem nodup_alter (h : (es.map (·.1)).Nodup) : ((alter name f es).map (·.1)).Nodup := by
  induction es with
  | nil =>
    rw [alter]
    cases f none <;> simp
  | cons e rest ih =>
    obtain ⟨n, node⟩ := e
    rw [List.map_cons, List.nodup_cons] at h
    by_cases hn : n = name
    · subst hn
      rw [alter, if_pos rfl]
      cases f (some node) with
      | none => exact h.2
      | some node' => simpa using h
    · rw [alter, if_neg hn, List.map_cons, List.nodup_cons]
      refine ⟨fun hm => ?_, ih h.2⟩
      obtain ⟨e, he, hen⟩ := List.mem_map.mp hm
      rcases mem_alter he with he | ⟨he, -⟩
      · exact h.1 (hen ▸ List.mem_map_of_mem (f := (·.1)) he)
      · exact hn (hen.symm.trans he)

end Entries

namespace Node

variable {root : Node} {p q : List Name} {f : Option Node → Option Node}

theorem get?_append (node : Node) (p q : List Name) :
    node.get? (p ++ q) = (node.get? p).bind fun inner => inner.get? q := by
  induction p generalizing node with
  | nil => simp [get?]
  | cons name rest ih =>
    cases node with
    | dir es =>
      rw [List.cons_append, get?, get?]
      cases Entries.find? es name with
      | none => rfl
      | some inner => exact ih inner
    | file | link => rfl

theorem get?_name {es : Entries} (h : root.get? p = some (.dir es)) (name : Name) :
    root.get? (p ++ [name]) = Entries.find? es name := by
  rw [get?_append, h, Option.bind_some, get?]
  cases Entries.find? es name <;> simp [get?]

/-- What stands below something is in a directory. -/
theorem dir_of_get?_append {node : Node} {name : Name} {rest : List Name}
    (h : root.get? (p ++ name :: rest) = some node) : ∃ es, root.get? p = some (.dir es) := by
  rw [get?_append] at h
  cases hp : root.get? p with
  | none => simp [hp] at h
  | some inner =>
    cases inner with
    | dir es => exact ⟨es, rfl⟩
    | file | link => simp [hp, get?] at h

/-- Above a directory stand directories. -/
theorem dir_of_prefix {es : Entries} (hpre : p <+: q) (h : root.get? q = some (.dir es)) :
    ∃ es, root.get? p = some (.dir es) := by
  obtain ⟨rest, rfl⟩ := hpre
  cases rest with
  | nil => exact ⟨es, by rwa [List.append_nil] at h⟩
  | cons => exact dir_of_get?_append h

theorem alter_of_not_dir {node : Node} (h : ∀ es, node ≠ .dir es) : node.alter f p = node := by
  cases node with
  | dir es => exact (h es rfl).elim
  | file | link => rcases p with _ | ⟨name, _ | _⟩ <;> rfl

theorem alter_cons {es : Entries} {name : Name} (h : p ≠ []) :
    (dir es).alter f (name :: p) = dir (Entries.alter name (Option.map (alter f p)) es) := by
  cases p with
  | nil => exact (h rfl).elim
  | cons => rfl

/-- Above the changed place stand the same nodes, changed below. -/
theorem get?_alter_above (h : q ≠ []) :
    (root.alter f (p ++ q)).get? p = (root.get? p).map (alter f q) := by
  induction p generalizing root with
  | nil => simp [get?]
  | cons name rest ih =>
    cases root with
    | file | link =>
      rw [alter_of_not_dir (by simp)]
      rfl
    | dir es =>
      have hne : rest ++ q ≠ [] := by simp [h]
      rw [List.cons_append, alter_cons hne, get?, get?]
      rw [Entries.find?_alter_self (f := Option.map _) ?_]
      · cases Entries.find? es name with
        | none => rfl
        | some inner => exact ih
      · exact .inr fun h => by simpa using h

theorem get?_alter_aside (hp : ¬ p <+: q) (hq : ¬ q <+: p) :
    (root.alter f p).get? q = root.get? q := by
  induction p generalizing root q with
  | nil => exact (hp (List.nil_prefix)).elim
  | cons name rest ih =>
    cases q with
    | nil => exact (hq (List.nil_prefix)).elim
    | cons other q =>
      cases root with
      | file | link => rw [alter_of_not_dir (by simp)]
      | dir es =>
        have below {g : Option Node → Option Node} (h : name ≠ other) :
            Entries.find? (Entries.alter name g es) other = Entries.find? es other :=
          Entries.find?_alter_of_ne (Ne.symm h)
        by_cases hr : rest = []
        · subst hr
          have hne : name ≠ other := by
            rintro rfl
            exact hp (List.prefix_append [name] q)
          simp only [alter, get?, below hne]
        · rw [alter_cons hr, get?, get?]
          by_cases hn : name = other
          · subst hn
            rw [Entries.find?_alter_self (.inr fun h => by simpa using h)]
            cases Entries.find? es name with
            | none => rfl
            | some inner =>
              refine ih (fun h => hp ?_) fun h => hq ?_
              · exact List.cons_prefix_cons.mpr ⟨rfl, h⟩
              · exact List.cons_prefix_cons.mpr ⟨rfl, h⟩
          · rw [below hn]

/-- At the changed place stands what the change makes of what stood there. -/
theorem get?_alter_self {es : Entries} {name : Name} (hr : root.get? p = some (.dir es))
    (h : (es.map (·.1)).Nodup ∨ (f (Entries.find? es name)).isSome) :
    (root.alter f (p ++ [name])).get? (p ++ [name]) = f (Entries.find? es name) := by
  have above : (root.alter f (p ++ [name])).get? p = some (.dir (Entries.alter name f es)) := by
    rw [get?_alter_above (by simp), hr]
    rfl
  rw [get?_name above]
  exact Entries.find?_alter_self (h.imp_right fun h _ => h)

end Node

/-- No directory lists a name twice, and every name is proper. -/
inductive Node.WellFormed : Node → Prop
  | file (id mode : Nat) (content : ByteArray) : WellFormed (.file id mode content)
  | link (target : Bytes) : WellFormed (.link target)
  | dir {es : Entries} (nodup : (es.map (·.1)).Nodup) (proper : ∀ e ∈ es, ProperName e.1)
      (inner : ∀ e ∈ es, WellFormed e.2) : WellFormed (.dir es)

namespace Node.WellFormed

variable {node : Node} {f : Option Node → Option Node} {p : List Name}

theorem empty : (Node.dir []).WellFormed := .dir List.nodup_nil (by simp) (by simp)

theorem get? (h : node.WellFormed) {inner : Node} (hp : node.get? p = some inner) :
    inner.WellFormed := by
  induction p generalizing node with
  | nil =>
    obtain rfl := Option.some.inj hp
    exact h
  | cons name rest ih =>
    cases h with
    | file | link => cases hp
    | @dir es nodup proper wf =>
      rw [Node.get?] at hp
      cases hf : Entries.find? es name with
      | none => simp [hf] at hp
      | some next =>
        rw [hf] at hp
        exact ih (wf _ (Entries.mem_of_find? hf)) hp

theorem properName (h : node.WellFormed) {inner : Node} (hp : node.get? p = some inner) :
    ∀ name ∈ p, ProperName name := by
  induction p generalizing node with
  | nil => simp
  | cons name rest ih =>
    cases h with
    | file | link => cases hp
    | @dir es nodup proper wf =>
      rw [Node.get?] at hp
      cases hf : Entries.find? es name with
      | none => simp [hf] at hp
      | some next =>
        rw [hf] at hp
        have hm := Entries.mem_of_find? hf
        intro n hn
        rcases List.mem_cons.mp hn with rfl | hn
        · exact proper _ hm
        · exact ih (wf _ hm) hp n hn

/-- A change by a well-formed part at proper names. -/
theorem alter (h : node.WellFormed) (hp : ∀ name ∈ p, ProperName name)
    (hf : ∀ o new, (∀ old ∈ o, old.WellFormed) → f o = some new → new.WellFormed) :
    (node.alter f p).WellFormed := by
  induction p generalizing node f with
  | nil =>
    cases h <;> constructor <;> assumption
  | cons name rest ih =>
    cases h with
    | file | link =>
      rw [alter_of_not_dir (by simp)]
      constructor
    | @dir es nodup proper wf =>
      have changed (g : Option Node → Option Node)
          (hg : ∀ o new, (∀ old ∈ o, old.WellFormed) → g o = some new → new.WellFormed) :
          (Node.dir (Entries.alter name g es)).WellFormed := by
        refine .dir (Entries.nodup_alter nodup) (fun e he => ?_) fun e he => ?_
        · rcases Entries.mem_alter he with he | ⟨he, -⟩
          · exact proper e he
          · exact he ▸ hp name List.mem_cons_self
        · rcases Entries.mem_alter he with he | ⟨-, o, ho, hm⟩
          · exact wf e he
          · exact hg o e.2 (fun old h => wf _ (hm old h)) ho
      by_cases hr : rest = []
      · subst hr
        exact changed f hf
      · rw [alter_cons hr]
        refine changed _ fun o new ho hn => ?_
        cases o with
        | none => cases hn
        | some old =>
          obtain rfl := Option.some.inj hn
          exact ih (ho old rfl) (fun n hn => hp n (List.mem_cons_of_mem _ hn)) hf

end Node.WellFormed

namespace Node

/-- What can be told of a node without going into it. -/
def face : Node → Node
  | dir _ => dir []
  | node => node

/-- What is seen of a place from its directory. -/
def look (root : Node) (place : Place) : Option Node := (root.get? place).map face

variable {root : Node} {p q : Place} {f : Option Node → Option Node}

theorem look_eq_none : root.look p = none ↔ root.get? p = none := by
  simp [look]

theorem look_eq_link {target : Bytes} :
    root.look p = some (.link target) ↔ root.get? p = some (.link target) := by
  unfold look
  cases root.get? p with
  | none => simp
  | some node => cases node <;> simp [face]

theorem look_eq_file {id mode : Nat} {content : ByteArray} :
    root.look p = some (.file id mode content) ↔ root.get? p = some (.file id mode content) := by
  unfold look
  cases root.get? p with
  | none => simp
  | some node => cases node <;> simp [face]

theorem look_eq_dir {es : Entries} :
    root.look p = some (.dir es) ↔ es = [] ∧ ∃ es', root.get? p = some (.dir es') := by
  unfold look
  cases root.get? p with
  | none => simp
  | some node =>
    cases node with
    | dir es' => simp [face, eq_comm]
    | file | link => simp [face]

theorem look_of_get? {es : Entries} (h : root.get? p = some (.dir es)) :
    root.look p = some (.dir []) := look_eq_dir.mpr ⟨rfl, es, h⟩

theorem face_alter (node : Node) : (node.alter f p).face = node.face := by
  cases node with
  | dir es => rcases p with _ | ⟨name, _ | _⟩ <;> rfl
  | file | link => rw [alter_of_not_dir (by simp)]

/-- What is taken away is gone, since it was listed once only. -/
theorem get?_erase (wf : root.WellFormed) (h : p ≠ []) :
    (root.alter (fun _ => none) p).get? p = none := by
  induction p generalizing root with
  | nil => exact (h rfl).elim
  | cons name rest ih =>
    cases wf with
    | file | link =>
      rw [alter_of_not_dir (by simp)]
      rfl
    | @dir es nodup proper wf =>
      by_cases hr : rest = []
      · subst hr
        rw [alter, get?, Entries.find?_alter_self (.inl nodup)]
      · rw [alter_cons hr, get?, Entries.find?_alter_self (.inl nodup)]
        cases hf : Entries.find? es name with
        | none => rfl
        | some inner => exact ih (wf _ (Entries.mem_of_find? hf)) hr

/-- A change at a place is seen nowhere but at the place and below it. -/
theorem look_alter (h : ¬ p <+: q) : (root.alter f p).look q = root.look q := by
  unfold look
  by_cases hq : q <+: p
  · obtain ⟨r, rfl⟩ := hq
    have hr : r ≠ [] := by
      rintro rfl
      exact h (by simp)
    rw [get?_alter_above hr, Option.map_map]
    exact congrArg (Option.map · _) (funext fun node => face_alter node)
  · rw [get?_alter_aside h hq]

end Node

namespace Disk

variable {d : Disk} {p q parent : Place} {name : Name} {node : Node}

@[simp] theorem get?_root (d : Disk) (p : Place) : d.root.get? p = d.get? p := rfl

/-- What is seen of a place from its directory. -/
def look (d : Disk) (place : Place) : Option Node := d.root.look place

theorem look_put (h : ¬ p <+: q) : (d.put p node).look q = d.look q := Node.look_alter h

theorem look_erase (h : ¬ p <+: q) : (d.erase p).look q = d.look q := Node.look_alter h

/-- The root stays. -/
theorem put_nil (d : Disk) (node : Node) : d.put [] node = d := by
  unfold put
  cases h : d.root <;> simp [Node.alter, ← h]

theorem get?_put_self {es : Entries} (h : d.get? parent = some (.dir es)) :
    (d.put (parent ++ [name]) node).get? (parent ++ [name]) = some node :=
  Node.get?_alter_self h (.inr rfl)

theorem get?_put_below {es : Entries} (h : d.get? parent = some (.dir es)) (r : Place) :
    (d.put (parent ++ [name]) node).get? (parent ++ [name] ++ r) = node.get? r := by
  change (d.put (parent ++ [name]) node).root.get? _ = _
  rw [Node.get?_append, get?_root, get?_put_self h, Option.bind_some]

theorem get?_erase_below (wf : d.root.WellFormed) (h : p ≠ []) (r : Place) :
    (d.erase p).get? (p ++ r) = none := by
  change (d.erase p).root.get? _ = _
  rw [Node.get?_append]
  simp only [erase, Node.get?_erase wf h, Option.bind_none]

theorem wellFormed_put (wf : d.root.WellFormed) (hp : ∀ name ∈ p, ProperName name)
    (hn : node.WellFormed) : (d.put p node).root.WellFormed :=
  wf.alter hp fun _ _ _ h => Option.some.inj h ▸ hn

theorem wellFormed_erase (wf : d.root.WellFormed) (hp : ∀ name ∈ p, ProperName name) :
    (d.erase p).root.WellFormed :=
  wf.alter hp fun _ _ _ h => by cases h

end Disk

end LayerPack
