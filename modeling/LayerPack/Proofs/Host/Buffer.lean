import LayerPack.Proofs.Host.Agreement
import LayerPack.Proofs.Program.Abreast

/-! Reading through one buffer. A read overwrites the front of the buffer, and behind it stays what was
read before. What was read is passed on, until a read returns nothing. However much each read returns,
what is passed on are the pieces of the content in their order, each of them once. -/
namespace LayerPack

open Program Machine

namespace Program

variable {α β γ δ : Type} {R : α → β → Prop} {S : γ → δ → Prop} {k : Kinship} {o : Outside} {m : Machine}

/-- The run ends with a result that is related to the one that is known, and it neither does nor changes
anything. -/
def FindsLike (R : α → β → Prop) (o : Outside) (k : Kinship) (m : Machine) (p : Program α) (found : β) :
    Prop :=
  p.Ends (answer o) m fun r es n => R r found ∧ deedsOf es = [] ∧ Lapsed k m n ∧ n.disk = m.disk

theorem FindsLike.bind {p : Program α} {f : α → Program γ} {b : β} {d : δ} (h : p.FindsLike R o k m b)
    (hf : ∀ a n, R a b → Lapsed k m n → n.disk = m.disk → (f a).FindsLike S o k n d) :
    (p.bind f).FindsLike S o k m d := by
  refine Ends.bind h ?_
  rintro a es n ⟨related, deeds, lapsed, disk⟩
  refine (hf a n related lapsed disk).mono ?_
  rintro c es' n' ⟨related', deeds', lapsed', disk'⟩
  exact ⟨related', by rw [deedsOf_append, deeds, deeds']; rfl, lapsed.trans lapsed', disk'.trans disk⟩

theorem Finds.bind_like {p : Program α} {f : α → Program γ} {a : α} {d : δ} (h : p.Finds o k m a)
    (hf : ∀ n, Lapsed k m n → n.disk = m.disk → (f a).FindsLike S o k n d) :
    (p.bind f).FindsLike S o k m d :=
  FindsLike.bind (R := Eq) h fun _ n same lapsed disk => same ▸ hf n lapsed disk

theorem findsLike_done {a : α} {b : β} (h : R a b) : (done a).FindsLike R o k m b :=
  ⟨h, rfl, .refl m, rfl⟩

/-- What is waited for, and what follows it if it succeeds. -/
theorem FindsLike.awaited {p : Program (Except Error α)} {f : α → Work γ} {x : Except Error β}
    {y : β → Except Error δ} (h : p.FindsLike (Paired Eq R) o k m x)
    (hf : ∀ a b n, R a b → Lapsed k m n → n.disk = m.disk →
      (f a none).FindsLike (Paired Eq S) o k n ((y b).mapError .failed)) :
    ((do f (← Work.ofExcept (← Work.await p))) none).FindsLike (Paired Eq S) o k m
      ((x >>= y).mapError .failed) := by
  have ends : (Work.await p none).FindsLike (fun r x => ∃ a, r = .ok a ∧ Paired Eq R a x) o k m x := by
    change FindsLike _ o k m (p.bind fun a => done (Except.ok a)) x
    exact h.bind fun a _ related _ _ => findsLike_done ⟨a, rfl, related⟩
  refine FindsLike.bind (p := Work.await p none) ends ?_
  rintro _ n ⟨r, rfl, related⟩ lapsed disk
  cases related with
  | error he => exact findsLike_done (.error (congrArg Stop.failed he))
  | ok related => exact hf _ _ n related lapsed disk

/-- A program that asks the same as another one ends as that does. -/
theorem Mirrors.findsLike {p : Program α} {p' : Program β} {b : β} (h : p.Mirrors R p')
    (found : p'.Finds o k m b) : p.FindsLike R o k m b := by
  obtain ⟨results, traces, states⟩ := h.run (answer o) m
  obtain ⟨rfl, deeds, lapsed, disk⟩ := found
  unfold FindsLike Ends
  rw [traces, states]
  exact ⟨results, deeds, lapsed, disk⟩

end Program

namespace Files

variable {σ τ : Type} {pass : σ → ByteArray → σ} {passed : σ} {buffer bytes content unread : ByteArray}
  {granted size : Nat}

/-- A buffer into which these bytes were read. -/
def refill (buffer bytes : ByteArray) : ByteArray := bytes ++ buffer.extract bytes.size buffer.size

theorem size_refill (h : bytes.size ≤ buffer.size) : (refill buffer bytes).size = buffer.size := by
  rw [refill, ByteArray.size_append, ByteArray.size_extract]
  omega

theorem extract_refill (buffer bytes : ByteArray) : (refill buffer bytes).extract 0 bytes.size = bytes :=
  ByteArray.extract_append_eq_left rfl

theorem taken_eq_zero (size granted : Nat) {left : Nat} : taken size granted left = 0 ↔ left = 0 := by
  unfold taken
  omega

theorem taken_le_size (pos : 0 < size) (granted left : Nat) : taken size granted left ≤ size := by
  unfold taken
  omega

theorem size_extract_taken (unread : ByteArray) (size granted : Nat) :
    (unread.extract 0 (taken size granted unread.size)).size = taken size granted unread.size := by
  have := taken_le size granted unread.size
  rw [ByteArray.size_extract]
  omega

/-- Reads an open file to its end through a buffer and passes on what every read has put into it. The
buffer is left for the next file. -/
def drain (pass : σ → ByteArray → σ) (buffer : ByteArray) (passed : σ) :
    OpenFile → Program (Except SystemError (ByteArray × σ))
  | .directory => .ask (.read .directory buffer.size) fun
    | .ok _ => .done (.ok (buffer, passed))
    | .error e => .done (.error e)
  | .data unread => .ask (.read (.data unread) buffer.size) fun
    | .error e => .done (.error e)
    | .ok granted =>
      let n := taken buffer.size granted unread.size
      if _ : n = 0 then .done (.ok (buffer, passed))
      else
        let filled := refill buffer (unread.extract 0 n)
        drain pass filled (pass passed (filled.extract 0 n)) (.data (unread.extract n unread.size))
termination_by file => match file with
  | .directory => 0
  | .data unread => unread.size
decreasing_by exact extract_size_lt unread buffer.size granted fun h => ‹¬_› ((taken_eq_zero ..).mpr h)

/-- What a read puts into the buffer is passed on, and nothing that was in it before. -/
theorem drain_data (pass : σ → ByteArray → σ) (buffer : ByteArray) (passed : σ) (unread : ByteArray) :
    drain pass buffer passed (.data unread) = .ask (.read (.data unread) buffer.size) fun
      | .error e => .done (.error e)
      | .ok granted =>
        let n := taken buffer.size granted unread.size
        if unread.size = 0 then .done (.ok (buffer, passed))
        else drain pass (refill buffer (unread.extract 0 n)) (pass passed (unread.extract 0 n))
          (.data (unread.extract n unread.size)) := by
  rw [drain]
  congr 1
  funext r
  cases r with
  | error e => rfl
  | ok granted =>
    have front := extract_refill buffer (unread.extract 0 (taken buffer.size granted unread.size))
    rw [size_extract_taken] at front
    dsimp only
    rw [front]
    by_cases h : unread.size = 0
    · rw [if_pos h, dif_pos ((taken_eq_zero ..).mpr h)]
    · rw [if_neg h, dif_neg (mt (taken_eq_zero ..).mp h)]

/-- The pieces of a content, as reads through a buffer return them. -/
structure Pieces (size : Nat) (content : ByteArray) (pieces : List ByteArray) : Prop where
  fit : ∀ piece ∈ pieces, 0 < piece.size ∧ piece.size ≤ size
  whole : pieces.foldr (· ++ ·) .empty = content

/-- Every run that succeeds has passed on the pieces of the content, with one more read at the end that
returned nothing. -/
theorem drain_pieces (pos : 0 < buffer.size) (answer : Answers τ) (s : τ) :
    (drain pass buffer passed (.data content)).Ends answer s fun r es _ =>
      ∀ buffer' passed', r = .ok (buffer', passed') → buffer'.size = buffer.size ∧ ∃ pieces,
        Pieces buffer.size content pieces ∧ passed' = pieces.foldl pass passed ∧
          es.length = pieces.length + 1 := by
  -- Every read that returns something leaves less unread.
  induction hs : content.size using Nat.strong_induction_on generalizing buffer passed content s with
  | _ left ih =>
    subst hs
    rw [drain_data]
    refine ends_ask.mpr ?_
    cases (answer (.read (.data content) buffer.size) s).1 with
    | error e => exact fun _ _ h => by cases h
    | ok granted =>
      dsimp only
      split
      next hz =>
        rintro _ _ ⟨⟩
        exact ⟨rfl, [], ⟨by simp, (ByteArray.size_eq_zero_iff.mp hz).symm⟩, rfl, rfl⟩
      next hz =>
        have le := taken_le buffer.size granted content.size
        have first := size_extract_taken content buffer.size granted
        have fits := taken_le_size pos granted content.size
        have some := Nat.pos_of_ne_zero (mt (taken_eq_zero buffer.size granted).mp hz)
        generalize taken buffer.size granted content.size = n at le first fits some
        have kept : (refill buffer (content.extract 0 n)).size = buffer.size :=
          size_refill (first.trans_le fits)
        refine (ih _ ?_ (kept.symm ▸ pos) _ rfl).mono fun r es _ later buffer' passed' hr => ?_
        · rw [ByteArray.size_extract]
          omega
        · obtain ⟨size, pieces, parts, fed, count⟩ := later buffer' passed' hr
          rw [kept] at size parts
          refine ⟨size, content.extract 0 n :: pieces, ⟨?_, ?_⟩, fed, by simp [count]⟩
          · rw [List.forall_mem_cons, first]
            exact ⟨⟨some, fits⟩, parts.fit⟩
          · rw [List.foldr_cons, parts.whole,
              ← ByteArray.extract_eq_extract_append_extract _ (Nat.zero_le _) le,
              ByteArray.extract_zero_size]

/-- Bytes that are passed on one after the other are passed on together. -/
structure Additive (pass : σ → ByteArray → σ) : Prop where
  empty : ∀ s, pass s .empty = s
  append : ∀ s a b, pass s (a ++ b) = pass (pass s a) b

/-- Reading through a buffer asks what reading into one array does, and passes on what that returns. -/
theorem drainFrom_mirrors (additive : Additive pass) (pos : 0 < buffer.size) (passed : σ)
    (held : ByteArray) (file : OpenFile) :
    (drain pass buffer (pass passed held) file).Mirrors
      (Paired Eq fun r whole => r.1.size = buffer.size ∧ r.2 = pass passed whole)
      (readFrom buffer.size held file) := by
  cases file with
  | directory =>
    rw [drain, readFrom]
    refine .ask _ fun r => ?_
    cases r with
    | error e => exact .done (.error rfl)
    | ok granted => exact .done (.ok ⟨rfl, rfl⟩)
  | data content =>
    induction hs : content.size using Nat.strong_induction_on generalizing buffer held content with
    | _ left ih =>
      subst hs
      rw [drain_data, readFrom]
      refine .ask _ fun r => ?_
      cases r with
      | error e => exact .done (.error rfl)
      | ok granted =>
        dsimp only
        split
        next hz => exact .done (.ok ⟨rfl, rfl⟩)
        next hz =>
          have fits := taken_le_size pos granted content.size
          have first := size_extract_taken content buffer.size granted
          have shorter := extract_size_lt content buffer.size granted hz
          generalize taken buffer.size granted content.size = n at first fits shorter
          have kept : (refill buffer (content.extract 0 n)).size = buffer.size :=
            size_refill (first.trans_le fits)
          have again := ih _ shorter (kept.symm ▸ pos) (held ++ content.extract 0 n) _ rfl
          rwa [kept, additive.append] at again

theorem drain_mirrors (additive : Additive pass) (pos : 0 < buffer.size) (passed : σ) (file : OpenFile) :
    (drain pass buffer passed file).Mirrors
      (Paired Eq fun r whole => r.1.size = buffer.size ∧ r.2 = pass passed whole)
      (readAll buffer.size file) := by
  have h := drainFrom_mirrors additive pos passed .empty file
  rwa [additive.empty] at h

end Files

end LayerPack
