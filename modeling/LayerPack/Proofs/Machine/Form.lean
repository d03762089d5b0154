import LayerPack.Proofs.Machine.Answers

/-! The form of a disk. Whatever a program asks, a well-formed disk stays well formed, as long as
collaborators and other programs keep it so. -/
namespace LayerPack

open Program Machine

variable {o : Outside} {m : Machine} {es es' : List (Request × Machine)}

/-- A request that others answer. -/
def Request.isForeign : Request → Bool
  | .run .. | .collaborate .. => true
  | _ => false

/-- In what they were asked, others left a well-formed disk well formed. -/
def Outside.KeepsForm (o : Outside) (es : List (Request × Machine)) : Prop :=
  ∀ e ∈ es, e.1.isForeign = true → e.2.disk.root.WellFormed →
    (answer o e.1 e.2).2.disk.root.WellFormed

theorem Outside.KeepsForm.mono (h : o.KeepsForm es') (sub : es ⊆ es') : o.KeepsForm es :=
  fun e he => h e (sub he)

/-- A move of anything leaves a well-formed disk well formed. -/
theorem Disk.rename_wellFormed {d d' : Disk} {cwd : Place} {src dst : Path}
    (wf : d.root.WellFormed) (h : d.rename cwd src dst = .ok d') : d'.root.WellFormed := by
  obtain ⟨_, _, _, dir, name, _, -, hdst, hmove⟩ := rename_ok h
  obtain ⟨node, hg, -, ⟨rfl, -⟩ | ⟨rfl, -, -⟩⟩ := move_ok hmove
  · exact wf
  obtain ⟨es, hes⟩ := dir_of_lookupParent hdst
  refine wellFormed_put (wellFormed_erase wf (wf.properName hg)) (fun n hn => ?_) (wf.get? hg)
  rcases List.mem_append.mp hn with hn | hn
  · exact wf.properName hes n hn
  · exact List.mem_singleton.mp hn ▸ (properName_of_lookupParent hdst).1

namespace Machine

theorem Same.wellFormed {m' : Machine} (h : Same m m') (wf : m.disk.root.WellFormed) :
    m'.disk.root.WellFormed := h.disk ▸ wf

theorem same_lock (o : Outside) (m : Machine) (h : Handle) : Same m (answer o (.lock h) m).2 := by
  change Same m (locking (o.fault m.ticks) (m.step (o.delay m.ticks)) h).2
  unfold locking
  split
  · exact ⟨rfl, rfl⟩
  · split <;> exact ⟨rfl, rfl⟩

theorem same_say (m : Machine) (stream : Stream) (text : String) : Same m (m.say stream text) := by
  cases stream <;> exact ⟨rfl, rfl⟩

theorem same_print (o : Outside) (m : Machine) (stream : Stream) (text : String) :
    Same m (answer o (.print stream text) m).2 := by
  unfold answer
  dsimp only
  split
  · exact same_step m _
  · exact (same_step m _).trans (same_say _ stream text)

theorem wellFormed_step (q : Request)
    (hq : q.isForeign = true → (answer o q m).2.disk.root.WellFormed)
    (wf : m.disk.root.WellFormed) : (answer o q m).2.disk.root.WellFormed := by
  cases q with
  | stat | list | snapshot | openRead | read | sync | workingDirectory =>
    exact ((same_step m _).trans (same_reading _ _ _)).wellFormed wf
  | «variable» | clock | freshName | log | unlock => exact wf
  | lock h => exact (same_lock o m h).wellFormed wf
  | print stream text => exact (same_print o m stream text).wellFormed wf
  | mkdir p =>
    rcases changed_mkdir o m p with ⟨-, hop, -⟩ | ⟨-, same⟩
    · exact (Disk.mkdir_tame hop).wellFormed wf
    · exact same.wellFormed wf
  | unlink p =>
    rcases changed_unlink o m p with ⟨-, hop, -⟩ | ⟨-, same⟩
    · exact (Disk.unlink_tame hop).wellFormed wf
    · exact same.wellFormed wf
  | removeTree p =>
    obtain ⟨h | h, -⟩ := removeTree_cases o m p
    · exact h ▸ Disk.removeTree_tame.wellFormed wf
    · exact h ▸ wf
  | rename src dst =>
    rcases changed_rename o m src dst with ⟨-, hop, -⟩ | ⟨-, same⟩
    · exact Disk.rename_wellFormed wf hop
    · exact same.wellFormed wf
  | openWrite truncate p =>
    rcases opened_openWrite o m truncate p with ⟨handle, -, hop, -⟩ | ⟨-, same⟩
    · exact (Disk.openWrite_tame hop).wellFormed wf
    · exact same.wellFormed wf
  | append handle bytes =>
    rcases changed_append o m handle bytes with ⟨-, hop, -⟩ | ⟨-, same⟩
    · rw [← Except.ok.inj hop]
      exact (Disk.append_tame handle bytes).wellFormed wf
    · exact same.wellFormed wf
  | run | collaborate => exact hq rfl

end Machine

/-- Every run of a program keeps the form of the disk if others do. -/
theorem Program.ends_wellFormed {α : Type} (p : Program α) (wf : m.disk.root.WellFormed) :
    p.Ends (answer o) m fun _ es m' => o.KeepsForm es → m'.disk.root.WellFormed := by
  have any (p : Program α) : p.Only fun _ => True := by
    induction p with
    | done => trivial
    | ask q next ih => exact ⟨trivial, ih⟩
  refine (any p).run_history (H := fun m es m' => m.disk.root.WellFormed → o.KeepsForm es →
    m'.disk.root.WellFormed) (fun _ wf _ => wf) ?_ m wf
  intro q m es m' _ rest wf keeps
  refine rest (wellFormed_step q (fun hq => ?_) wf) (keeps.mono (List.subset_cons_self _ _))
  exact keeps (q, m) List.mem_cons_self hq wf

end LayerPack
