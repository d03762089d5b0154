import LayerPack.Proofs.Disk.Spelled

/-! Trees can be compared, and whether a tree is well formed and whether a path meets links in it can
be decided. -/
namespace LayerPack

namespace Node

mutual
def decEq : (a b : Node) → Decidable (a = b)
  | file id mode content, file id' mode' content' =>
    decidable_of_iff (id = id' ∧ mode = mode' ∧ content = content') (by simp)
  | link target, link target' => decidable_of_iff (target = target') (by simp)
  | dir es, dir es' =>
    match decEqAll es es' with
    | isTrue h => isTrue (by rw [h])
    | isFalse h => isFalse (by simpa using h)
  | file .., link _ | file .., dir _ | link _, file .. | link _, dir _ | dir _, file ..
  | dir _, link _ => isFalse (by simp)

def decEqAll : (es es' : List (Name × Node)) → Decidable (es = es')
  | [], [] => isTrue rfl
  | (name, node) :: rest, (name', node') :: rest' =>
    if hn : name = name' then
      match decEq node node' with
      | isFalse h => isFalse (by simp [h])
      | isTrue h =>
        match decEqAll rest rest' with
        | isFalse hr => isFalse (by simp [hr])
        | isTrue hr => isTrue (by rw [hn, h, hr])
    else isFalse (by simp [hn])
  | [], _ :: _ | _ :: _, [] => isFalse (by simp)
end

instance : DecidableEq Node := decEq

instance (name : Name) : Decidable (ProperName name) :=
  decidable_of_iff (name ≠ [] ∧ slash ∉ name ∧ name ≠ dot ∧ name ≠ dotdot)
    ⟨fun h => ⟨h.1, h.2.1, h.2.2.1, h.2.2.2⟩, fun h => ⟨h.1, h.2, h.3, h.4⟩⟩

theorem wellFormed_dir {es : Entries} : (dir es).WellFormed ↔
    (es.map (·.1)).Nodup ∧ (∀ e ∈ es, ProperName e.1) ∧ ∀ e ∈ es, e.2.WellFormed := by
  constructor
  · rintro ⟨⟩
    exact ⟨‹_›, ‹_›, ‹_›⟩
  · exact fun ⟨nodup, proper, inner⟩ => .dir nodup proper inner

mutual
def decWellFormed : (node : Node) → Decidable node.WellFormed
  | file id mode content => isTrue (.file id mode content)
  | link target => isTrue (.link target)
  | dir es =>
    match decWellFormedAll es with
    | isTrue h =>
      decidable_of_iff ((es.map (·.1)).Nodup ∧ ∀ e ∈ es, ProperName e.1)
        ⟨fun wf => .dir wf.1 wf.2 h, fun wf => ⟨(wellFormed_dir.mp wf).1, (wellFormed_dir.mp wf).2.1⟩⟩
    | isFalse h => isFalse fun wf => h (wellFormed_dir.mp wf).2.2

def decWellFormedAll : (es : List (Name × Node)) → Decidable (∀ e ∈ es, e.2.WellFormed)
  | [] => isTrue (by simp)
  | (name, node) :: rest =>
    match decWellFormed node, decWellFormedAll rest with
    | isTrue h, isTrue hr => isTrue (List.forall_mem_cons.mpr ⟨h, hr⟩)
    | isFalse h, _ => isFalse fun wf => h (wf (name, node) List.mem_cons_self)
    | _, isFalse hr => isFalse fun wf => hr fun e he => wf e (List.mem_cons_of_mem _ he)
end

instance (node : Node) : Decidable node.WellFormed := decWellFormed node

theorem noLinkAbove_iff {root : Node} {names : List Name} : root.NoLinkAbove names ↔
    ∀ n < names.length, (root.get? (names.take n)).all fun node => !node.isLink := by
  constructor
  · intro h n hn
    cases hg : root.get? (names.take n) with
    | none => rfl
    | some node =>
      cases node with
      | file | dir => rfl
      | link target =>
        refine (h _ target (List.take_prefix n names) (fun he => ?_) hg).elim
        have := congrArg List.length he
        rw [List.length_take] at this
        omega
  · intro h up target hu hne ht
    have hlt : up.length < names.length :=
      Nat.lt_of_le_of_ne hu.length_le fun he => hne (hu.eq_of_length he)
    have := h up.length hlt
    rw [← List.prefix_iff_eq_take.mp hu, ht] at this
    cases this

instance (root : Node) (names : List Name) : Decidable (root.NoLinkAbove names) :=
  decidable_of_iff _ noLinkAbove_iff.symm

end Node

end LayerPack
