import LayerPack.Hash.Sha256
import Mathlib.Data.List.Basic

/-! Hashing what comes in parts. A hasher mixes every block as soon as it is whole and keeps the bytes of
the last one. Parts that are fed one after the other are hashed as what they make up together. -/
namespace LayerPack.Sha256

variable {a b b' bytes whole rest : ByteArray} {s : State} {i block block' : Nat}

/-! ### Blocks -/

theorem byteAt_append_left (h : i < a.size) : byteAt (a ++ b) i = byteAt a i := by
  have h' : i < (a ++ b).size := by
    rw [ByteArray.size_append]
    omega
  rw [byteAt, dif_pos h', byteAt, dif_pos h, ByteArray.getElem_append_left h]

theorem byteAt_append_right : byteAt (a ++ b) (a.size + i) = byteAt b i := by
  unfold byteAt
  simp only [ByteArray.size_append, Nat.add_lt_add_iff_left]
  split
  next h =>
    rw [ByteArray.getElem_append_right (Nat.le_add_right ..)]
    simp
  next => rfl

/-- What is mixed are the bytes of the block, wherever it stands. -/
theorem mix_congr (h : ∀ i < 64, byteAt b (64 * block + i) = byteAt b' (64 * block' + i)) (s : State) :
    mix b s block = mix b' s block' := by
  have given : (Array.range 16).map (fun k => wordAt b (64 * block + 4 * k)) =
      (Array.range 16).map fun k => wordAt b' (64 * block' + 4 * k) := by
    refine Array.map_congr_left fun k hk => ?_
    have hk := Array.mem_range.mp hk
    unfold wordAt
    simp only [Nat.add_assoc]
    rw [h _ (by omega), h _ (by omega), h _ (by omega), h _ (by omega)]
  have same : schedule b (64 * block) = schedule b' (64 * block') := by
    simp only [schedule, given]
  rw [mix, mix, same]

/-- Mixes the whole blocks of some bytes. -/
def absorb (s : State) (b : ByteArray) : State := (List.range (b.size / 64)).foldl (mix b) s

/-- Whole blocks are mixed apart from what follows them. -/
theorem absorb_append (h : 64 ∣ a.size) : absorb s (a ++ b) = absorb (absorb s a) b := by
  obtain ⟨n, hn⟩ := h
  have blocks : (a ++ b).size / 64 = n + b.size / 64 := by
    rw [ByteArray.size_append, hn]
    omega
  have size : a.size / 64 = n := by omega
  unfold absorb
  rw [blocks, size, List.range_add, List.foldl_append, List.foldl_map]
  refine (List.foldl_ext _ _ _ fun t k _ => ?_).trans (congrArg (List.foldl _ · _) ?_)
  · refine mix_congr (fun i _ => ?_) t
    rw [Nat.mul_add, ← hn, Nat.add_assoc, byteAt_append_right]
  · refine List.foldl_ext _ _ _ fun t k hk => mix_congr (fun i hi => byteAt_append_left ?_) t
    have := List.mem_range.mp hk
    omega

theorem absorb_small (h : b.size < 64) : absorb s b = s := by
  rw [absorb, Nat.div_eq_of_lt h]
  rfl

/-- The bytes behind the whole blocks. -/
def lastPart (b : ByteArray) : ByteArray := b.extract (64 * (b.size / 64)) b.size

theorem size_lastPart (b : ByteArray) : (lastPart b).size = b.size % 64 := by
  rw [lastPart, ByteArray.size_extract]
  omega

theorem lastPart_append (h : 64 ∣ a.size) : lastPart (a ++ b) = lastPart b := by
  obtain ⟨n, hn⟩ := h
  have start : 64 * ((a ++ b).size / 64) = a.size + 64 * (b.size / 64) := by
    rw [ByteArray.size_append, hn]
    omega
  rw [lastPart, start, ByteArray.size_append, ByteArray.extract_append_size_add, lastPart]

/-- All bytes are whole blocks and the bytes behind them. -/
theorem exists_whole (s : State) (b : ByteArray) :
    ∃ whole, b = whole ++ lastPart b ∧ 64 ∣ whole.size ∧ absorb s b = absorb s whole := by
  have cut : 64 * (b.size / 64) ≤ b.size := Nat.mul_div_le ..
  have parts : b = b.extract 0 (64 * (b.size / 64)) ++ lastPart b := by
    rw [lastPart, ← ByteArray.extract_eq_extract_append_extract _ (Nat.zero_le _) cut,
      ByteArray.extract_zero_size]
  have whole : 64 ∣ (b.extract 0 (64 * (b.size / 64))).size := by
    rw [ByteArray.size_extract, Nat.min_eq_left cut]
    exact Nat.dvd_mul_right ..
  refine ⟨_, parts, whole, ?_⟩
  conv_lhs => rw [parts]
  rw [absorb_append whole, absorb_small]
  rw [size_lastPart]
  exact Nat.mod_lt _ (by decide)

/-! ### Hashers -/

/-- The hash of the bytes that were fed so far, of which the last are not a whole block yet. -/
@[ext]
structure Hasher where
  state : State
  pending : ByteArray
  length : Nat
  part : pending.size = length % 64

namespace Hasher

variable {h : Hasher}

def start : Hasher := ⟨.initial, .empty, 0, rfl⟩

/-- Feeds some more bytes. -/
def update (h : Hasher) (bytes : ByteArray) : Hasher where
  state := absorb h.state (h.pending ++ bytes)
  pending := lastPart (h.pending ++ bytes)
  length := h.length + bytes.size
  part := by
    rw [size_lastPart, ByteArray.size_append, h.part]
    omega

/-- The end mark, zeros and the length in bits of a message. -/
def padding (size : Nat) : ByteArray :=
  (0x80 :: List.replicate (zeroCount size) 0 ++ lengthBytes size).toByteArray

/-- The digest in hexadecimal of all that was fed. -/
def finish (h : Hasher) : String :=
  String.join ((absorb h.state (h.pending ++ padding h.length)).words.map hexWord)

theorem update_empty (h : Hasher) : h.update .empty = h := by
  have small : h.pending.size < 64 := by
    rw [h.part]
    exact Nat.mod_lt _ (by decide)
  refine Hasher.ext ?_ ?_ rfl
  · change absorb h.state (h.pending ++ .empty) = h.state
    rw [ByteArray.append_empty, absorb_small small]
  · change lastPart (h.pending ++ .empty) = h.pending
    rw [ByteArray.append_empty, lastPart, Nat.div_eq_of_lt small, ByteArray.extract_zero_size]

theorem update_append (h : Hasher) (a b : ByteArray) : h.update (a ++ b) = (h.update a).update b := by
  obtain ⟨whole, parts, blocks, same⟩ := exists_whole h.state (h.pending ++ a)
  have joined : h.pending ++ (a ++ b) = whole ++ (lastPart (h.pending ++ a) ++ b) := by
    rw [← ByteArray.append_assoc, ← ByteArray.append_assoc, ← parts]
  refine Hasher.ext ?_ ?_ ?_
  · change absorb h.state (h.pending ++ (a ++ b)) = absorb (absorb h.state (h.pending ++ a)) _
    rw [joined, absorb_append blocks, same]
    rfl
  · change lastPart (h.pending ++ (a ++ b)) = lastPart _
    rw [joined, lastPart_append blocks]
    rfl
  · change h.length + (a ++ b).size = h.length + a.size + b.size
    rw [ByteArray.size_append, Nat.add_assoc]

/-- What was fed to a hasher is hashed as a whole. -/
theorem finish_update (message : ByteArray) : (start.update message).finish = hexDigest message := by
  obtain ⟨whole, parts, blocks, same⟩ := exists_whole .initial message
  have padded : pad message = whole ++ (lastPart message ++ padding message.size) := by
    rw [← ByteArray.append_assoc, ← parts]
    rfl
  have state : (start.update message).state = absorb .initial message := by
    change absorb .initial (.empty ++ message) = _
    rw [ByteArray.empty_append]
  have pending : (start.update message).pending = lastPart message := by
    change lastPart (.empty ++ message) = _
    rw [ByteArray.empty_append]
  have length : (start.update message).length = message.size := Nat.zero_add _
  have final : finalState message = absorb .initial (pad message) := rfl
  rw [hexDigest, final, padded, absorb_append blocks, ← same, finish, state, pending, length]

end Hasher

end LayerPack.Sha256
