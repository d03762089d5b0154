import LayerPack.Proofs.Lock.Discipline
import LayerPack.Proofs.Machine.Losses
import Mathlib.Logic.Function.Basic

/-! Any number of runs on one machine. They take turns in any order; in its turn a run makes one
request and has it answered. As long as the lock file is not taken away from the path that leads to
it, the runs that have it open have the same file open, so at most one of them has it locked. -/
namespace LayerPack

open Program Machine

/-- One of several runs: its current directory, what is left of it, and how far it has come with its
lock. -/
structure Runner where
  cwd : Place
  todo : Program (Except RunError Report)
  hold : Hold := .none

/-- The run has its lock. -/
def Runner.IsInside (r : Runner) : Prop := ∃ file, r.hold = .taken file

/-- Every request that the run can still make keeps to the discipline of its lock. -/
def Runner.Follows (L : Path) (K : Request → Prop) (r : Runner) : Prop :=
  r.todo.Follows L K (fun _ _ => True) r.hold

structure Crew (ι : Type) where
  machine : Machine
  runner : ι → Runner

/-- A request of one run, and the machine as it was asked. -/
structure Turn (ι : Type) where
  who : ι
  request : Request
  machine : Machine

namespace Crew

variable {ι : Type} [DecidableEq ι]

/-- The machine as a run sees it. -/
def seenBy (c : Crew ι) (k : ι) : Machine := { c.machine with cwd := (c.runner k).cwd }

/-- The request that a run makes in its turn, if it is not over. -/
def asked (c : Crew ι) (k : ι) : Option (Turn ι) :=
  match (c.runner k).todo with
  | .done _ => none
  | .ask q _ => some ⟨k, q, c.seenBy k⟩

/-- The machine answers a run, and the run goes on from the answer. -/
def answered (o : Outside) (k : ι) (q : Request)
    (next : q.Reply → Program (Except RunError Report)) (c : Crew ι) : Crew ι :=
  { machine := (answer o q (c.seenBy k)).2
    runner := Function.update c.runner k
      ⟨(c.runner k).cwd, next (answer o q (c.seenBy k)).1,
        (c.runner k).hold.next q (answer o q (c.seenBy k)).1⟩ }

/-- One turn of a run. -/
def turn (o : Outside) (k : ι) (c : Crew ι) : Crew ι :=
  match (c.runner k).todo with
  | .done _ => c
  | .ask q next => c.answered o k q next

/-- The turns that a schedule gives to the runs, one after the other. -/
def play (o : Outside) : List ι → Crew ι → Crew ι
  | [], c => c
  | k :: rest, c => (c.turn o k).play o rest

/-- What is asked in these turns. -/
def turns (o : Outside) : List ι → Crew ι → List (Turn ι)
  | [], _ => []
  | k :: rest, c => (c.asked k).toList ++ (c.turn o k).turns o rest

end Crew

variable {ι : Type} [DecidableEq ι] {o : Outside} {L : Path} {c : Crew ι} {k : ι}

/-- In this turn the lock file is taken away from its path. -/
def Turn.Loses (o : Outside) (L : Path) (e : Turn ι) : Prop :=
  ∃ id, e.machine.disk.Leads [] L id ∧ ¬ (answer o e.request e.machine).2.disk.Leads [] L id

/-- What others do in this turn leaves the lock alone: the file at its path, the locks that are held, and
the form of the disk. -/
def Turn.Spares (o : Outside) (L : Path) (e : Turn ι) : Prop :=
  e.request.isForeign = true →
    (e.machine.disk.root.WellFormed →
      (answer o e.request e.machine).2.disk.root.WellFormed) ∧
    (answer o e.request e.machine).2.held = e.machine.held ∧
    ∀ id, e.machine.disk.Leads [] L id → (answer o e.request e.machine).2.disk.Leads [] L id

namespace Crew

/-- Every file that is open for locking is the one that the lock path leads to; what a run has taken
is locked, and only one run has taken it. -/
structure Locked (L : Path) (c : Crew ι) : Prop where
  form : c.machine.disk.root.WellFormed
  opened : ∀ k file, (c.runner k).hold = .opened file → c.machine.disk.Leads [] L file.id
  taken : ∀ k file, (c.runner k).hold = .taken file →
    c.machine.disk.Leads [] L file.id ∧ file.id ∈ c.machine.held
  alone : ∀ j k, (c.runner j).IsInside → (c.runner k).IsInside → j = k

/-- One run has come further with its lock, and the machine has changed. -/
theorem Locked.update (h : c.Locked L) {m : Machine} {todo : Program (Except RunError Report)}
    {hold : Hold} (form : m.disk.root.WellFormed)
    (leads : ∀ id, c.machine.disk.Leads [] L id → m.disk.Leads [] L id)
    (others : ∀ j file, j ≠ k → (c.runner j).hold = .taken file → file.id ∈ m.held)
    (opened : ∀ file, hold = .opened file → m.disk.Leads [] L file.id)
    (taken : ∀ file, hold = .taken file → m.disk.Leads [] L file.id ∧ file.id ∈ m.held ∧
      ∀ j, (c.runner j).IsInside → j = k) :
    Locked L ⟨m, Function.update c.runner k ⟨(c.runner k).cwd, todo, hold⟩⟩ := by
  have mine : Function.update c.runner k ⟨(c.runner k).cwd, todo, hold⟩ k =
      ⟨(c.runner k).cwd, todo, hold⟩ := Function.update_self ..
  have other (j : ι) (hj : j ≠ k) :
      Function.update c.runner k ⟨(c.runner k).cwd, todo, hold⟩ j = c.runner j :=
    Function.update_of_ne hj ..
  refine ⟨form, ?_, ?_, ?_⟩
  · intro j file hf
    dsimp only at hf
    by_cases hj : j = k
    · subst hj
      rw [mine] at hf
      exact opened file hf
    · rw [other j hj] at hf
      exact leads _ (h.opened j file hf)
  · intro j file hf
    dsimp only at hf
    by_cases hj : j = k
    · subst hj
      rw [mine] at hf
      exact ⟨(taken file hf).1, (taken file hf).2.1⟩
    · rw [other j hj] at hf
      exact ⟨leads _ (h.taken j file hf).1, others j file hj hf⟩
  · intro i j hi hj
    dsimp only at hi hj
    by_cases hik : i = k <;> by_cases hjk : j = k
    · exact hik.trans hjk.symm
    · subst hik
      rw [mine] at hi
      rw [other j hjk] at hj
      obtain ⟨file, hf⟩ := hi
      exact ((taken file hf).2.2 j hj).symm
    · subst hjk
      rw [mine] at hj
      rw [other i hik] at hi
      obtain ⟨file, hf⟩ := hj
      exact (taken file hf).2.2 i hi
    · rw [other i hik] at hi
      rw [other j hjk] at hj
      exact h.alone i j hi hj

/-- The run works, with its lock or before it opens the lock file. -/
theorem Locked.works (h : c.Locked L) {q : Request} (hq : q.isLocking = false)
    {next : q.Reply → Program (Except RunError Report)}
    (form : (answer o q (c.seenBy k)).2.disk.root.WellFormed)
    (leads : ∀ id, c.machine.disk.Leads [] L id →
      (answer o q (c.seenBy k)).2.disk.Leads [] L id)
    (held : (answer o q (c.seenBy k)).2.held = c.machine.held) :
    (c.answered o k q next).Locked L := by
  unfold answered
  rw [Hold.next_of_not_locking hq]
  refine h.update form leads ?_ ?_ ?_
  · intro j file _ hf
    exact held ▸ (h.taken j file hf).2
  · intro file hf
    exact leads _ (h.opened k file hf)
  · intro file hf
    obtain ⟨hl, hm⟩ := h.taken k file hf
    exact ⟨leads _ hl, held ▸ hm, fun j hj => h.alone j k hj ⟨file, hf⟩⟩

/-- The run opens the lock file. -/
theorem Locked.opens (h : c.Locked L) (hL : L.isAbsolute) (hk : (c.runner k).hold = .none)
    {next : Except SystemError Handle → Program (Except RunError Report)}
    (form : (answer o (.openWrite false L) (c.seenBy k)).2.disk.root.WellFormed)
    (leads : ∀ id, c.machine.disk.Leads [] L id →
      (answer o (.openWrite false L) (c.seenBy k)).2.disk.Leads [] L id) :
    (c.answered o k (.openWrite false L) next).Locked L := by
  have held : (answer o (.openWrite false L) (c.seenBy k)).2.held = c.machine.held :=
    held_step o (c.seenBy k) rfl (fun _ h => by cases h) fun _ h => by cases h
  have others (j : ι) (file : Handle) (_ : j ≠ k) (hf : (c.runner j).hold = .taken file) :
      file.id ∈ (answer o (.openWrite false L) (c.seenBy k)).2.held := held ▸ (h.taken j file hf).2
  unfold answered
  rw [hk]
  rcases opened_openWrite o (c.seenBy k) false L with ⟨file, hr, hop, -⟩ | ⟨⟨e, hr⟩, -⟩
  · rw [hr]
    refine h.update form leads others ?_ fun _ hf => by cases hf
    intro file' hf
    obtain rfl : file = file' := Hold.opened.inj hf
    exact (Disk.leads_absolute hL []).mp (Disk.openWrite_leads hop)
  · rw [hr]
    refine h.update form leads others ?_ ?_ <;> exact fun _ hf => by cases hf

/-- The run locks the file that it has opened. If it succeeds, then no other run has the lock, since it
would have locked the same file. -/
theorem Locked.locks (h : c.Locked L) {file : Handle} (hk : (c.runner k).hold = .opened file)
    {next : Except SystemError Unit → Program (Except RunError Report)} :
    (c.answered o k (.lock file) next).Locked L := by
  have same := same_lock o (c.seenBy k) file
  have leads (id : Nat) (hl : c.machine.disk.Leads [] L id) :
      (answer o (.lock file) (c.seenBy k)).2.disk.Leads [] L id := by
    rw [same.disk]
    exact hl
  have mine := h.opened k file hk
  unfold answered
  rw [hk]
  rcases locked_answer o (c.seenBy k) file with ⟨hr, free, held⟩ | ⟨⟨e, hr⟩, held⟩
  · rw [hr]
    have outside (j : ι) (hj : (c.runner j).IsInside) : False := by
      obtain ⟨other, ho⟩ := hj
      obtain ⟨theirs, locked⟩ := h.taken j other ho
      exact free (mine.unique theirs ▸ locked)
    refine h.update (same.wellFormed h.form) leads
      (fun j other _ ho => (outside j ⟨other, ho⟩).elim) (fun _ hf => by cases hf) ?_
    intro file' hf
    obtain rfl : file = file' := Hold.taken.inj hf
    exact ⟨leads _ mine, held ▸ List.mem_cons_self, fun j hj => (outside j hj).elim⟩
  · rw [hr]
    refine h.update (same.wellFormed h.form) leads
      (fun j other _ ho => held ▸ (h.taken j other ho).2) ?_ ?_ <;> exact fun _ hf => by cases hf

/-- The run gives its lock back. It was the only one that had it. -/
theorem Locked.releases (h : c.Locked L) {file : Handle} (hk : (c.runner k).hold = .taken file)
    {next : Unit → Program (Except RunError Report)} :
    (c.answered o k (.unlock file) next).Locked L := by
  unfold answered
  rw [hk]
  refine h.update h.form (fun _ hl => hl) (fun j other hj ho => ?_) ?_ ?_
  · exact (hj (h.alone j k ⟨other, ho⟩ ⟨file, hk⟩)).elim
  all_goals exact fun _ hf => by cases hf

/-- A turn in which the lock file is not taken away. -/
theorem Locked.turn {K : Request → Prop} (h : c.Locked L) (hL : L.isAbsolute)
    (hK : ∀ q, K q → q.isLocking = false) (follows : (c.runner k).Follows L K)
    (safe : ∀ e ∈ c.asked k, ¬ e.Loses o L ∧ e.Spares o L) : (c.turn o k).Locked L := by
  unfold Crew.turn
  unfold Runner.Follows at follows
  unfold asked at safe
  cases htodo : (c.runner k).todo with
  | done a => exact h
  | ask q next =>
    rw [htodo] at follows safe
    obtain ⟨hloses, hspares⟩ := safe _ rfl
    obtain ⟨allowed, -⟩ := follows
    have leads (id : Nat) (hl : c.machine.disk.Leads [] L id) :
        (answer o q (c.seenBy k)).2.disk.Leads [] L id :=
      Classical.byContradiction fun hn => hloses ⟨id, hl, hn⟩
    have form : (answer o q (c.seenBy k)).2.disk.root.WellFormed :=
      wellFormed_step q (fun hq => (hspares hq).1 h.form) h.form
    have works (hq : K q) : (c.answered o k q next).Locked L := by
      refine h.works (hK q hq) form leads ?_
      cases hforeign : q.isForeign with
      | true => exact (hspares hforeign).2.1
      | false =>
        have := hK q hq
        refine held_step o (c.seenBy k) hforeign ?_ ?_ <;> rintro file rfl <;> cases this
    cases hk : (c.runner k).hold with
    | none =>
      rw [hk] at allowed
      rcases allowed with rfl | hq
      · exact h.opens hL hk form leads
      · exact works hq
    | opened file =>
      rw [hk] at allowed
      obtain rfl : q = .lock file := allowed
      exact h.locks hk
    | taken file =>
      rw [hk] at allowed
      rcases allowed with rfl | hq
      · exact h.releases hk
      · exact works hq

theorem follows_turn {K : ι → Request → Prop} (follows : ∀ k, (c.runner k).Follows L (K k)) (j : ι) :
    ∀ k, ((c.turn o j).runner k).Follows L (K k) := by
  intro k
  unfold Crew.turn
  cases htodo : (c.runner j).todo with
  | done a => exact follows k
  | ask q next =>
    dsimp only [answered]
    by_cases hk : k = j
    · subst hk
      have := follows k
      unfold Runner.Follows at this
      rw [htodo] at this
      rw [Function.update_self]
      exact this.2 _
    · rw [Function.update_of_ne hk]
      exact follows k

/-- As long as the lock file is not taken away, all stays in order. -/
theorem Locked.play {K : ι → Request → Prop} {schedule : List ι} (h : c.Locked L)
    (hL : L.isAbsolute) (hK : ∀ k q, K k q → q.isLocking = false)
    (follows : ∀ k, (c.runner k).Follows L (K k))
    (safe : ∀ e ∈ c.turns o schedule, ¬ e.Loses o L ∧ e.Spares o L) :
    (c.play o schedule).Locked L := by
  induction schedule generalizing c with
  | nil => exact h
  | cons k rest ih =>
    refine ih (h.turn hL (hK k) (follows k) fun e he => safe e ?_) (follows_turn follows k)
      fun e he => safe e (List.mem_append_right _ he)
    exact List.mem_append_left _ (Option.mem_toList.mpr he)

/-- Whatever is asked in a turn keeps to the discipline. -/
theorem allowed_of_mem_turns {K : ι → Request → Prop} {schedule : List ι}
    (follows : ∀ k, (c.runner k).Follows L (K k)) :
    ∀ e ∈ c.turns o schedule, ∃ hold : Hold, hold.Allows L (K e.who) e.request := by
  induction schedule generalizing c with
  | nil => exact fun e he => by cases he
  | cons k rest ih =>
    intro e he
    rcases List.mem_append.mp he with he | he
    · have hasked := Option.mem_toList.mp he
      have := follows k
      unfold Runner.Follows at this
      unfold asked at hasked
      cases htodo : (c.runner k).todo with
      | done a =>
        rw [htodo] at hasked
        cases hasked
      | ask q next =>
        rw [htodo] at hasked this
        cases hasked
        exact ⟨(c.runner k).hold, this.1⟩
    · exact ih (follows_turn follows k) e he

end Crew

end LayerPack
