import Mathlib.Algebra.Ring.Nat
import Mathlib.Data.Option.Basic
import LayerPack.Proofs.Text.Utf8
import LayerPack.Zip.Number
import LayerPack.Zip.Reader
import LayerPack.Zip.Writer

/-! Reading back what was written. The directory of a written archive is found at its end, and it lists
every entry with its name and its size, if all numbers fit the widths of their fields. -/
namespace LayerPack.Zip

/-! ### Where bytes stand in a file

What is written as numbers of fixed widths is read at the places that the widths before it make. -/

section

/-- Some bytes stand at a place of a file. -/
def Stands (b : ByteArray) (place : Nat) (x : ByteArray) : Prop :=
  ∃ front back, b = front ++ x ++ back ∧ front.size = place

variable {b x y : ByteArray} {place width n : Nat}

theorem Stands.left (h : Stands b place (x ++ y)) : Stands b place x := by
  obtain ⟨front, back, rfl, hs⟩ := h
  exact ⟨front, y ++ back, by simp only [ByteArray.append_assoc], hs⟩

theorem Stands.right (h : Stands b place (x ++ y)) : Stands b (place + x.size) y := by
  obtain ⟨front, back, rfl, rfl⟩ := h
  exact ⟨front ++ x, back, by simp only [ByteArray.append_assoc], ByteArray.size_append⟩

theorem Stands.le (h : Stands b place x) : place + x.size ≤ b.size := by
  obtain ⟨front, back, rfl, rfl⟩ := h
  simp only [ByteArray.size_append]
  omega

theorem Stands.bytesAt? (h : Stands b place x) : bytesAt? b place x.size = some x := by
  have fits := h.le
  obtain ⟨front, back, rfl, rfl⟩ := h
  have skip : (front ++ (x ++ back)).extract (front.size + 0) (front.size + x.size) =
      (x ++ back).extract 0 x.size := ByteArray.extract_append_size_add
  rw [Nat.add_zero, ← ByteArray.append_assoc] at skip
  rw [Zip.bytesAt?, if_pos fits, skip, ByteArray.extract_append_eq_left rfl]

theorem Stands.numberAt? (h : Stands b place (numberBytes width n).toByteArray) :
    numberAt? b place width = some (n % Nat.pow 256 width) := by
  have read := h.bytesAt?
  rw [List.size_toByteArray, length_numberBytes] at read
  rw [Zip.numberAt?, read, Option.map_some, List.data_toByteArray, numberOf_numberBytes]

/-- Numbers of these widths, one after the other. -/
def fields : List (Nat × Nat) → List UInt8
  | [] => []
  | (width, n) :: rest => numberBytes width n ++ fields rest

/-- The numbers are read from a place on, as far as their widths hold them. -/
def Reads (b : ByteArray) : Nat → List (Nat × Nat) → Prop
  | _, [] => True
  | place, (width, n) :: rest =>
    numberAt? b place width = some (n % Nat.pow 256 width) ∧ Reads b (place + width) rest

theorem length_fields (fs : List (Nat × Nat)) : (fields fs).length = (fs.map Prod.fst).sum := by
  induction fs with
  | nil => rfl
  | cons f rest ih => simp [fields, ih]

theorem Stands.fields {fs : List (Nat × Nat)} {rest : List UInt8}
    (h : Stands b place (fields fs ++ rest).toByteArray) :
    Reads b place fs ∧ Stands b (place + (fs.map Prod.fst).sum) rest.toByteArray := by
  induction fs generalizing place with
  | nil => exact ⟨trivial, h⟩
  | cons f fs ih =>
    obtain ⟨width, n⟩ := f
    rw [Zip.fields, List.append_assoc, List.toByteArray_append] at h
    have later := h.right
    rw [List.size_toByteArray, length_numberBytes] at later
    obtain ⟨reads, tail⟩ := ih later
    refine ⟨⟨h.left.numberAt?, reads⟩, ?_⟩
    rwa [List.map_cons, List.sum_cons, ← Nat.add_assoc]

end

/-! ### What was written -/

/-- The reader lists what the writer was given: every entry in its place, with its name and its size. -/
def ReadsBack (entries : List Entry) : Prop :=
  ∃ items, items? (encode entries) = some items ∧
    items.map (fun item => (item.name, item.size)) = entries.map fun e => (e.name, e.content.size)

/-! ### Names -/

theorem pageChar_ascii {c : Char} (h : c.toNat < 128) : pageChar (UInt8.ofNat c.toNat) = c := by
  have hb : (UInt8.ofNat c.toNat).toNat = c.toNat := by
    rw [UInt8.toNat_ofNat', Nat.mod_eq_of_lt (by omega)]
  rw [pageChar, hb, if_pos (UInt8.lt_iff_toNat_lt.mpr (by rw [hb]; exact h)), Char.ofNat_toNat]

theorem utf8EncodeChar_ascii {c : Char} (h : c.toNat < 128) :
    String.utf8EncodeChar c = [UInt8.ofNat c.toNat] := by
  simp only [String.utf8EncodeChar]
  exact if_pos (Nat.le_of_lt_succ h)

theorem Packed.flags_lt (p : Packed) : p.flags < 2 ^ 16 := by
  rw [flags]
  split <;> decide

/-- A name is read back by the flag that was set for it. -/
theorem nameOf_flags (p : Packed) : nameOf p.flags p.nameBytes.toByteArray = p.entry.name := by
  change nameOf p.flags (Bytes.ofString p.entry.name).toByteArray = _
  rw [Packed.flags]
  split
  next ascii =>
    rw [nameOf, if_neg (by decide), List.data_toByteArray, Bytes.ofString_eq, List.map_flatMap]
    have each : ∀ c ∈ p.entry.name.toList, (String.utf8EncodeChar c).map pageChar = [c] := by
      intro c hc
      have ascii : c.toNat < 128 := by simpa using List.all_eq_true.mp ascii c hc
      rw [utf8EncodeChar_ascii ascii, List.map_singleton, pageChar_ascii ascii]
    rw [List.flatMap_def, List.map_congr_left each, ← List.flatMap_def, List.flatMap_singleton',
      String.ofList_toList]
  next =>
    rw [nameOf, if_pos (by decide), displayContent, Bytes.toByteArray_ofString]
    have valid := Bytes.toText?_ofString p.entry.name
    rw [Bytes.toText?, Bytes.toByteArray_ofString] at valid
    rw [valid, Option.getD_some]

/-! ### Records -/

variable {b : ByteArray} {p : Packed} {packed : List Packed} {place offset : Nat}

theorem centralRecord_eq (p : Packed) (offset : Nat) : p.centralRecord offset =
    (fields [(4, 0x02014B50), (1, 20), (1, 3), (2, 20), (2, p.flags), (2, 8), (2, 0), (2, Packed.date),
      (4, p.crc), (4, p.data.size), (4, p.entry.content.size), (2, p.nameBytes.length), (2, 0), (2, 0),
      (2, 0), (2, 0), (4, (0o100000 + p.entry.mode) * 65536), (4, offset)] ++ p.nameBytes).toByteArray := by
  simp [Packed.centralRecord, Packed.common, fields, numberBytes]

theorem size_centralRecord (p : Packed) (offset : Nat) :
    (p.centralRecord offset).size = 46 + p.nameBytes.length := by
  rw [centralRecord_eq, List.size_toByteArray, List.length_append, length_fields]
  simp only [List.map_cons, List.map_nil, List.sum_cons, List.sum_nil, Nat.reduceAdd]

theorem signature_central (h : Stands b place (p.centralRecord offset)) :
    numberAt? b place 4 = some 0x02014B50 := by
  rw [centralRecord_eq] at h
  exact h.fields.1.1

theorem bytesAt?_nothing (h : place ≤ b.size) : bytesAt? b place 0 = some .empty := by
  rw [bytesAt?, Nat.add_zero, if_pos h, ByteArray.extract_same]

/-- What the directory says of a written entry with its local header at an offset. -/
def Packed.item (p : Packed) (offset : Nat) : Item where
  name := p.entry.name
  method := 8
  time := 0
  date := date
  crc := p.crc % Nat.pow 256 4
  size := p.entry.content.size
  system := 3
  attributes := (0o100000 + p.entry.mode) * 65536 % Nat.pow 256 4
  offset := offset

/-- A record of the directory is read back, if its numbers fit. -/
theorem readItem_central (h : Stands b place (p.centralRecord offset)) (name : p.nameBytes.length < 2 ^ 16)
    (content : p.entry.content.size < 2 ^ 32) (ho : offset < 2 ^ 32) :
    readItem b 0 place = some (p.item offset, place + (p.centralRecord offset).size) := by
  have fits := h.le
  rw [size_centralRecord] at fits ⊢
  rw [centralRecord_eq] at h
  obtain ⟨reads, tail⟩ := h.fields
  simp only [Reads, Nat.add_assoc, Nat.reduceAdd] at reads
  obtain ⟨h0, h4, h5, h6, h8, h10, h12, h14, h16, h20, h24, h28, h30, h32, h34, h36, h38, h42, -⟩ := reads
  have raw : bytesAt? b (place + 46) p.nameBytes.length = some p.nameBytes.toByteArray := by
    simpa using tail.bytesAt?
  have extra : bytesAt? b (place + (46 + p.nameBytes.length)) 0 = some .empty := bytesAt?_nothing (by omega)
  have two : Nat.pow 256 2 = 2 ^ 16 := rfl
  have four : Nat.pow 256 4 = 2 ^ 32 := rfl
  rw [two, Nat.mod_eq_of_lt p.flags_lt] at h8
  rw [four, Nat.mod_eq_of_lt content] at h24
  rw [two, Nat.mod_eq_of_lt name] at h28
  rw [two] at h30 h32
  rw [four, Nat.mod_eq_of_lt ho] at h42
  unfold readItem
  simp only [h0, h5, h8, h10, h12, h14, h16, h20, h24, h28, h30, h32, h38, h42, raw, Nat.zero_mod,
    Option.bind_eq_bind, Option.bind_some, Nat.add_assoc, Nat.add_zero, extra, guard, if_pos fits,
    nameOf_flags]
  rfl

theorem size_localRecord (p : Packed) : p.localRecord.size = 30 + p.nameBytes.length + p.data.size := by
  simp [Packed.localRecord, Packed.localHeader, Packed.common]
  omega

theorem hasLocalHeader_item (h : Stands b offset p.localRecord) :
    hasLocalHeader b (p.item offset) = true := by
  have fits := h.le
  rw [size_localRecord] at fits
  have signature : numberAt? b offset 4 = some 0x04034B50 := by
    rw [Packed.localRecord, Packed.localHeader, List.append_assoc, List.toByteArray_append,
      ByteArray.append_assoc] at h
    exact h.left.numberAt?
  have room : offset + 30 ≤ b.size := by omega
  rw [hasLocalHeader, Packed.item, signature, beq_self_eq_true, Bool.and_true, decide_eq_true_iff]
  exact room

/-- What the directory lists of entries of which the first stands at an offset. -/
def itemsFrom : Nat → List Packed → List Item
  | _, [] => []
  | offset, p :: rest => p.item offset :: itemsFrom (offset + p.localRecord.size) rest

theorem itemsFrom_facts (offset : Nat) (packed : List Packed) :
    (itemsFrom offset packed).map (fun item => (item.name, item.size)) =
      packed.map fun p => (p.entry.name, p.entry.content.size) := by
  induction packed generalizing offset with
  | nil => rfl
  | cons p rest ih => rw [itemsFrom, List.map_cons, List.map_cons, ih, Packed.item]

theorem hasLocalHeader_of_mem {item : Item} (h : Stands b offset (localPart packed))
    (hm : item ∈ itemsFrom offset packed) : hasLocalHeader b item = true := by
  induction packed generalizing offset with
  | nil => cases hm
  | cons p rest ih =>
    rcases List.mem_cons.mp hm with rfl | hm
    · exact hasLocalHeader_item h.left
    · exact ih h.right hm

/-- Names and sizes that fit the widths of their fields. -/
structure Packed.Narrow (p : Packed) : Prop where
  name : p.nameBytes.length < 2 ^ 16
  content : p.entry.content.size < 2 ^ 32

/-- The directory is read record by record. -/
theorem readItems_central (small : b.size < 2 ^ 32) (narrow : ∀ p ∈ packed, p.Narrow)
    (hc : Stands b place (centralPart offset packed)) (hl : Stands b offset (localPart packed)) :
    readItems b 0 packed.length place = some (itemsFrom offset packed) := by
  induction packed generalizing place offset with
  | nil => rfl
  | cons p rest ih =>
    have fits := hl.left.le
    rw [size_localRecord] at fits
    have first := narrow p List.mem_cons_self
    have item := readItem_central hc.left first.name first.content (by omega)
    have others := ih (fun q hq => narrow q (List.mem_cons_of_mem _ hq)) hc.right hl.right
    rw [List.length_cons, readItems, item]
    simp only [Option.bind_eq_bind, Option.bind_some, others]
    rfl

/-! ### The end of the file -/

/-- After an end record there is no other. -/
theorem readEnd_behind (h : b.size < place + 22) : readEnd b place = none := by
  unfold readEnd
  simp only [Option.bind_eq_bind, Option.bind_eq_none_iff]
  intro signature _ _ _ length _
  rw [guard, if_neg (by omega)]
  exact fun _ h => by cases h

theorem itemsBefore_behind (h : b.size ≤ place + 22) (count : Nat) :
    itemsBefore b (place + 1 + count) = itemsBefore b (place + 1) := by
  induction count with
  | zero => rfl
  | succ count ih =>
    rw [← Nat.add_assoc, itemsBefore, readEnd_behind (by omega), Option.bind_none]
    exact ih

theorem endPart_eq {count start size : Nat} (hc : count < countLimit) (hs : start < sizeLimit)
    (hd : size < sizeLimit) : endPart count start size =
      (fields [(4, 0x06054B50), (2, 0), (2, 0), (2, count), (2, count), (4, size), (4, start), (2, 0)] ++
        []).toByteArray := by
  have plain : ¬ (countLimit < count ∨ sizeLimit < start ∨ sizeLimit < size) := by omega
  rw [endPart]
  simp only [if_neg plain, Nat.min_eq_left (Nat.le_of_lt hc), Nat.min_eq_left (Nat.le_of_lt hs),
    Nat.min_eq_left (Nat.le_of_lt hd), fields, List.nil_append, List.append_nil, List.append_assoc]

theorem size_endPart {count start size : Nat} (hc : count < countLimit) (hs : start < sizeLimit)
    (hd : size < sizeLimit) : (endPart count start size).size = 22 := by
  rw [endPart_eq hc hs hd, List.size_toByteArray, List.length_append, length_fields]
  rfl

/-- The end record leads to the directory in front of it. -/
theorem readEnd_endPart {count start size : Nat} (h : Stands b place (endPart count start size))
    (hc : count < countLimit) (hs : start < sizeLimit) (hd : size < sizeLimit)
    (layout : start + size = place)
    (first : count ≠ 0 → 0 < size ∧ numberAt? b start 4 = some 0x02014B50) :
    readEnd b place = some ⟨count, start, 0⟩ := by
  rw [endPart_eq hc hs hd] at h
  obtain ⟨reads, tail⟩ := h.fields
  have room : place + 22 ≤ b.size := tail.le
  simp only [Reads, Nat.add_assoc, Nat.reduceAdd] at reads
  obtain ⟨h0, h4, h6, h8, h10, h12, h16, h20, -⟩ := reads
  have two : Nat.pow 256 2 = 65536 := rfl
  have four : Nat.pow 256 4 = 4294967296 := rfl
  rw [countLimit] at hc
  rw [sizeLimit] at hs hd
  rw [two, Nat.mod_eq_of_lt (by omega)] at h8 h10
  rw [four, Nat.mod_eq_of_lt (by omega)] at h12 h16
  have plain : ¬ (count = 0xFFFF ∨ count = 0xFFFF ∨ size = 0xFFFFFFFF ∨ start = 0xFFFFFFFF) := by omega
  unfold readEnd
  simp only [h0, h4, h6, h8, h10, h12, h16, h20, Nat.zero_mod, Nat.add_zero, Option.bind_eq_bind,
    Option.bind_some, guard, if_pos room, if_neg plain]
  by_cases none : count = 0
  · simp [none]
  · obtain ⟨some, signature⟩ := first none
    have guess : place - size = start := by omega
    have before : start < place := by omega
    simp [none, guess, before, signature]

/-- The parts of a written archive follow each other. -/
theorem stands_encode (entries : List Entry) :
    Stands (encode entries) 0 (localPart (entries.map Entry.pack)) ∧
    Stands (encode entries) (localPart (entries.map Entry.pack)).size
      (centralPart 0 (entries.map Entry.pack)) ∧
    Stands (encode entries) ((localPart (entries.map Entry.pack)).size +
        (centralPart 0 (entries.map Entry.pack)).size)
      (endPart entries.length (localPart (entries.map Entry.pack)).size
        (centralPart 0 (entries.map Entry.pack)).size) := by
  have whole : Stands (encode entries) 0 (encode entries) :=
    ⟨.empty, .empty, by rw [ByteArray.empty_append, ByteArray.append_empty], rfl⟩
  have parts := whole.left
  have last := whole.right
  rw [ByteArray.size_append] at last
  rw [Nat.zero_add] at last
  have middle := parts.right
  rw [Nat.zero_add] at middle
  exact ⟨parts.left, middle, last⟩

/-- The numbers of an archive fit the widths of their fields. -/
structure Fits (entries : List Entry) : Prop where
  names : ∀ entry ∈ entries, entry.name.utf8ByteSize < 2 ^ 16
  contents : ∀ entry ∈ entries, entry.content.size < 2 ^ 32
  count : entries.length < countLimit
  size : (encode entries).size < sizeLimit

variable {entries : List Entry}

theorem Fits.narrow (h : Fits entries) : ∀ p ∈ entries.map Entry.pack, p.Narrow := by
  simp only [List.forall_mem_map]
  exact fun entry he => ⟨h.names entry he, h.contents entry he⟩

theorem Fits.size_encode (h : Fits entries) : (encode entries).size =
    (localPart (entries.map Entry.pack)).size + (centralPart 0 (entries.map Entry.pack)).size + 22 := by
  have inside := (stands_encode entries).2.2.le
  have small := h.size
  rw [encode, ByteArray.size_append, ByteArray.size_append]
  rw [size_endPart h.count (by omega) (by omega)]

/-- The directory of a written archive is found from its end. -/
theorem itemsBefore_encode (fits : Fits entries) :
    itemsBefore (encode entries) (encode entries).size =
      some (itemsFrom 0 (entries.map Entry.pack)) := by
  obtain ⟨body, directory, last⟩ := stands_encode entries
  have small := fits.size
  have items := readItems_central (by rw [sizeLimit] at small; omega) fits.narrow directory body
  rw [List.length_map] at items
  have first : entries.length ≠ 0 → 0 < (centralPart 0 (entries.map Entry.pack)).size ∧
      numberAt? (encode entries) (localPart (entries.map Entry.pack)).size 4 = some 0x02014B50 := by
    intro some
    obtain ⟨entry, rest, rfl⟩ := List.exists_cons_of_length_pos (Nat.pos_of_ne_zero some)
    refine ⟨?_, signature_central directory.left⟩
    rw [List.map_cons, centralPart, ByteArray.size_append, size_centralRecord]
    omega
  have whole := fits.size_encode
  generalize (localPart (entries.map Entry.pack)).size = start at *
  generalize (centralPart 0 (entries.map Entry.pack)).size = size at *
  have found := readEnd_endPart last fits.count (by omega) (by omega) rfl first
  have reached : itemsBefore (encode entries) (start + size + 1) =
      some (itemsFrom 0 (entries.map Entry.pack)) := by
    rw [itemsBefore, found, Option.bind_some, items]
  rw [← reached, whole]
  exact itemsBefore_behind (Nat.le_of_eq whole) 21

/-! ### All entries -/

theorem foldl_addItem {items listed : List Item} (h : ((listed ++ items).map (·.name)).Nodup) :
    items.foldl addItem listed = listed ++ items := by
  induction items generalizing listed with
  | nil => rw [List.foldl_nil, List.append_nil]
  | cons item rest ih =>
    have fresh : listed.any (·.name = item.name) = false := by
      rw [List.map_append, List.map_cons, List.nodup_append] at h
      simp only [List.any_eq_false, decide_eq_true_eq]
      exact fun old hm => h.2.2 _ (List.mem_map_of_mem hm) _ List.mem_cons_self
    rw [List.append_cons] at h ⊢
    rw [List.foldl_cons, addItem, fresh]
    exact ih h

/-- An archive of entries with different names is read back if its numbers fit. -/
theorem readsBack_of_fits (distinct : (entries.map (·.name)).Nodup) (fits : Fits entries) :
    ReadsBack entries := by
  have facts : (itemsFrom 0 (entries.map Entry.pack)).map (fun item => (item.name, item.size)) =
      entries.map fun e => (e.name, e.content.size) := by
    rw [itemsFrom_facts, List.map_map]
    rfl
  have names : (itemsFrom 0 (entries.map Entry.pack)).map (·.name) = entries.map (·.name) := by
    have firsts := congrArg (List.map Prod.fst) facts
    rw [List.map_map, List.map_map] at firsts
    exact firsts
  have headers :
      (itemsFrom 0 (entries.map Entry.pack)).all (hasLocalHeader (encode entries)) = true :=
    List.all_eq_true.mpr fun _ hm => hasLocalHeader_of_mem (stands_encode entries).1 hm
  have all : (itemsFrom 0 (entries.map Entry.pack)).foldl addItem [] =
      itemsFrom 0 (entries.map Entry.pack) :=
    foldl_addItem (by rwa [List.nil_append, names])
  refine ⟨_, ?_, facts⟩
  rw [items?, itemsBefore_encode fits, Option.bind_eq_bind, Option.bind_some, all, if_pos headers]

end LayerPack.Zip
