import EosForce.ByteFileProofs
import EosForce.ChainTypesProofs

/-! # The binary snapshot container

    The writer leaves room for the size and the number of rows of a section
    and fills it in when the section ends; the reader finds a section by its
    name and skips the others by their sizes.

    The reader compares the bytes of the stream with the characters of the
    name, and a character is signed: a byte from `0x80` on is never equal to
    the character it was written from, so that a section with such a byte in
    its name is not found. -/

namespace SnapshotStream

open ChainTypes ByteFile List

/-- `ostream_snapshot_writer::magic_number`. -/
def magicNumber : Nat := 0x30510550

/-- `current_snapshot_version`. -/
def currentSnapshotVersion : Nat := 1

/-- `std::numeric_limits<uint64_t>::max()`, the placeholder and the end
    marker. -/
def endMarker : Nat := 2 ^ 64 - 1

/-! ## The writer -/

/-- A `std::ostream` with the position it writes at. -/
structure OStream where
  bytes : File
  pos : Nat
deriving DecidableEq

def OStream.write (out : OStream) (d : File) : OStream :=
  ⟨writeAt out.bytes out.pos d, out.pos + d.length⟩

def OStream.seekp (out : OStream) (pos : Nat) : OStream :=
  { out with pos }

/-- `ostream_snapshot_writer`; the position `-1` is `none`. -/
structure Writer where
  snapshot : OStream
  headerPos : Nat
  sectionPos : Option Nat := none
  rowCount : Nat := 0
deriving DecidableEq

/-- The constructor of `ostream_snapshot_writer`. -/
def Writer.create (snapshot : OStream) : Writer where
  snapshot := (snapshot.write (leBytes 4 magicNumber)).write (leBytes 4 currentSnapshotVersion)
  headerPos := snapshot.pos

/-- `write_start_section`. -/
def Writer.writeStartSection (w : Writer) (sectionName : File) : Except FcException Writer := do
  eosAssert (w.sectionPos = none) .snapshot
    "Attempting to write a new section without closing the previous section"
  pure { w with
    snapshot := (((w.snapshot.write (leBytes 8 endMarker)).write (leBytes 8 endMarker)).write
      sectionName).write [0]
    sectionPos := some w.snapshot.pos
    rowCount := 0 }

/-- `write_row`, for a row that is packed as `packed`. -/
def Writer.writeRow (w : Writer) (packed : File) : Writer :=
  { w with snapshot := w.snapshot.write packed, rowCount := (w.rowCount + 1) % 2 ^ 64 }

/-- `write_end_section`. -/
def Writer.writeEndSection (w : Writer) : Except FcException Writer :=
  match w.sectionPos with
  | none => .error ⟨.stdException, "basic_ios::clear: iostream error"⟩
  | some sectionPos =>
    let restore := w.snapshot.pos
    let sectionSize := restore - sectionPos - 8
    .ok { w with
      snapshot := (((w.snapshot.seekp sectionPos).write (leBytes 8 sectionSize)).write
        (leBytes 8 w.rowCount)).seekp restore
      sectionPos := none
      rowCount := 0 }

/-- `finalize`. -/
def Writer.finalize (w : Writer) : OStream :=
  w.snapshot.write (leBytes 8 endMarker)

/-- A section: its name and its rows. -/
abbrev Section (ρ : Type) := File × List ρ

variable {ρ κ : Type}

variable (pack : ρ → File)

/-- `write_section`. -/
def Writer.writeSection (w : Writer) (sec : Section ρ) :
    Except FcException Writer := do
  let w ← w.writeStartSection sec.1
  (sec.2.foldl (fun w row => w.writeRow (pack row)) w).writeEndSection

/-- A snapshot of the sections, written on a stream. -/
def writeSnapshot (snapshot : OStream) (sections : List (Section ρ)) :
    Except FcException OStream := do
  let w ← sections.foldlM (Writer.writeSection pack) (Writer.create snapshot)
  pure w.finalize

/-! ## The reader -/

/-- A character as a number: `char` is signed. -/
def charValue (c : UInt8) : Int :=
  if c.toNat < 128 then c.toNat else (c.toNat : Int) - 256

variable (f : File)

/-- `std::istream::get`: the next byte, or `EOF`. -/
def getByte (pos : Nat) : Int :=
  match f[pos]? with
  | some b => b.toNat
  | none => -1

/-- The loop that compares a section's name, with where it leaves the
    stream. -/
def matchName (f : File) : File → Nat → Bool × Nat
  | [], pos => (true, pos)
  | c :: name, pos =>
    if getByte f pos ≠ charValue c then (false, pos + 1) else matchName f name (pos + 1)

/-- A position past a section of the given size; the size is taken for a
    signed offset. -/
def skip (pos size : Nat) : Option Nat :=
  let next : Int := pos + toI64 size
  if 0 ≤ next then some next.toNat else none

/-- The loop of `has_section` and `set_section` from a position: the number of
    rows and the place of the first row, if the section is there.  `none` is a
    stream that ends before its end marker. -/
def findSection (f : File) (sectionName : File) : Nat → Nat → Option (Option (Nat × Nat))
  | 0, _ => none
  | fuel + 1, nextSectionPos => do
      let sectionSize ← readLE 8 f nextSectionPos
      if sectionSize = endMarker then some none
      else
        let next ← skip (nextSectionPos + 8) sectionSize
        let rowCount ← readLE 8 f (nextSectionPos + 8)
        let (matched, pos) := matchName f sectionName (nextSectionPos + 16)
        if matched && getByte f pos == 0 then some (some (rowCount, pos + 1))
        else findSection f sectionName fuel next

/-- `istream_snapshot_reader` on a stream of bytes, with the position of the
    stream. -/
structure Reader where
  headerPos : Nat
  pos : Nat
  numRows : Nat := 0
  curRow : Nat := 0
deriving DecidableEq

/-- The constructor of `istream_snapshot_reader`. -/
def Reader.create (pos : Nat) : Reader where
  headerPos := pos
  pos := pos

/-- The search from the first section on; a section takes more than a byte. -/
def Reader.find (r : Reader) (sectionName : File) : Option (Option (Nat × Nat)) :=
  findSection f sectionName (f.length + 1) (r.headerPos + 8)

/-- `has_section`. -/
def Reader.hasSection (r : Reader) (sectionName : File) : Option Bool :=
  (r.find f sectionName).map Option.isSome

/-- `set_section`. -/
def Reader.setSection (r : Reader) (sectionName : File) : Except FcException Reader :=
  match r.find f sectionName with
  | some (some (rowCount, pos)) => .ok { r with pos, numRows := rowCount, curRow := 0 }
  | some none => .error ⟨.snapshot, "Binary snapshot has no section named $\x7bn\x7d"⟩
  | none => .error ⟨.stdException, "basic_ios::clear: iostream error"⟩

/-- `read_row` with a row's `unpack`: the row and whether there are more. -/
def Reader.readRow (unpack : File → Option (ρ × File)) (r : Reader) :
    Option ((ρ × Bool) × Reader) := do
  let (row, rest) ← unpack (f.drop r.pos)
  some ((row, decide (r.curRow + 1 < r.numRows)),
    { r with pos := f.length - rest.length, curRow := r.curRow + 1 })

/-- The loop over `validate_section`; `none` is a failure of the stream. -/
def validateSections (f : File) : Nat → Nat → Option Unit
  | 0, _ => none
  | fuel + 1, pos => do
      let sectionSize ← readLE 8 f pos
      if sectionSize = endMarker then some ()
      else
        let next ← skip (pos + 8) sectionSize
        validateSections f fuel next

/-- A failure of the stream while it is validated. -/
def orSnapshotException {α : Type} (x : Option α) : Except FcException α :=
  match x with
  | some a => .ok a
  | none => .error ⟨.snapshot, "Binary snapshot validation threw IO exception ($\x7bwhat\x7d)"⟩

/-- `validate`. -/
def Reader.validate (r : Reader) : Except FcException Unit := do
  let actualTotem ← orSnapshotException (readLE 4 f r.pos)
  eosAssert (actualTotem = magicNumber) .snapshot "Binary snapshot has unexpected magic number!"
  let actualVersion ← orSnapshotException (readLE 4 f (r.pos + 4))
  eosAssert (actualVersion = currentSnapshotVersion) .snapshot
    "Binary snapshot is an unsuppored version.  Expected : $\x7bexpected\x7d, Got: $\x7bactual\x7d"
  orSnapshotException (validateSections f (f.length + 1) (r.pos + 8))

/-! ## The layout that the writer leaves -/

/-- The rows, packed one after the other. -/
def packRows (rows : List ρ) : File := rows.flatMap pack

/-- A section in the stream: its size and its number of rows, its name with a
    terminating zero, its rows. -/
def sectionBytes (sec : Section ρ) : File :=
  leBytes 8 (8 + (sec.1.length + 1 + (packRows pack sec.2).length)) ++
    (leBytes 8 sec.2.length ++ (sec.1 ++ (0 :: packRows pack sec.2)))

/-- The sections, one after the other, and the end marker. -/
def bodyBytes (sections : List (Section ρ)) : File :=
  sections.flatMap (sectionBytes pack) ++ leBytes 8 endMarker

/-- The magic number and the version. -/
def headerBytes : File := leBytes 4 magicNumber ++ leBytes 4 currentSnapshotVersion

/-- The stream stands behind `a`; what follows is left from the bytes `old`
    that were there before. -/
def OStream.At (old : File) (out : OStream) (a : File) : Prop :=
  out = ⟨a ++ old.drop a.length, a.length⟩

theorem write_behind (a junk d : File) : OStream.write ⟨a ++ junk, a.length⟩ d =
    ⟨a ++ d ++ junk.drop d.length, (a ++ d).length⟩ := by
  rw [OStream.write, writeAt_append, append_assoc, length_append]

variable {old : File}

theorem OStream.At.write {out : OStream} {a : File} (h : OStream.At old out a) (d : File) :
    OStream.At old (out.write d) (a ++ d) := by
  rw [OStream.At] at h ⊢
  rw [h, write_behind, drop_drop, length_append]

/-- Bytes that lie behind the stream are replaced, in two steps. -/
theorem OStream.At.patch {out : OStream} {a b c x y : File} (h : OStream.At old out (a ++ (b ++ c)))
    (hlen : (x ++ y).length = b.length) :
    OStream.At old ((((out.seekp a.length).write x).write y).seekp out.pos)
      (a ++ (x ++ y ++ c)) := by
  have hsame : (a ++ (x ++ y ++ c)).length = (a ++ (b ++ c)).length := by
    rw [length_append, @length_append _ (x ++ y), hlen, length_append, length_append]
  rw [OStream.At] at h ⊢
  rw [hsame, h]
  show OStream.seekp (((OStream.mk (a ++ (b ++ c) ++ _) a.length).write x).write y) _ = _
  rw [append_assoc a, write_behind, write_behind, drop_drop, ← length_append,
    append_assoc b, hlen, drop_left, OStream.seekp]
  simp only [append_assoc]

/-- The writer is between two sections, behind `a`. -/
def Writer.Between (old : File) (w : Writer) (a : File) : Prop :=
  OStream.At old w.snapshot a ∧ w.sectionPos = none

theorem create_between {snapshot : OStream} {a : File} (h : OStream.At old snapshot a) :
    Writer.Between old (Writer.create snapshot) (a ++ headerBytes) := by
  refine ⟨?_, rfl⟩
  rw [headerBytes, ← append_assoc]
  exact (h.write _).write _

theorem writeRows {pack : ρ → File} (rows : List ρ) : ∀ {w : Writer} {a : File},
    OStream.At old w.snapshot a → w.rowCount + rows.length < 2 ^ 64 →
    OStream.At old (rows.foldl (fun w row => w.writeRow (pack row)) w).snapshot
        (a ++ packRows pack rows) ∧
      (rows.foldl (fun w row => w.writeRow (pack row)) w).sectionPos = w.sectionPos ∧
      (rows.foldl (fun w row => w.writeRow (pack row)) w).rowCount = w.rowCount + rows.length := by
  induction rows with
  | nil =>
    intro w a h _
    refine ⟨?_, rfl, rfl⟩
    rw [packRows, flatMap_nil, append_nil]
    exact h
  | cons row rows ih =>
    intro w a h hcount
    rw [length_cons] at hcount
    have hrow : (w.writeRow (pack row)).rowCount = w.rowCount + 1 :=
      Nat.mod_eq_of_lt (by omega)
    obtain ⟨hat, hpos, hrows⟩ := ih (h.write (pack row)) (by
      show (w.writeRow (pack row)).rowCount + rows.length < 2 ^ 64
      omega)
    refine ⟨?_, hpos, ?_⟩
    · rw [packRows, flatMap_cons, ← append_assoc]
      exact hat
    · rw [length_cons, foldl_cons, hrows, hrow]
      omega

/-- The size and the number of rows are filled in. -/
theorem writeEndSection_ok {w : Writer} {a m rest : File}
    (h : OStream.At old w.snapshot (a ++ (m ++ rest))) (hpos : w.sectionPos = some a.length)
    (hm : m.length = 16) :
    ∃ w', w.writeEndSection = .ok w' ∧
      Writer.Between old w' (a ++
        (leBytes 8 (8 + rest.length) ++ (leBytes 8 w.rowCount ++ rest))) := by
  have hsize : w.snapshot.pos - a.length - 8 = 8 + rest.length := by
    rw [OStream.At] at h
    rw [h]
    simp only [length_append]
    omega
  refine ⟨{ w with
    snapshot := (((w.snapshot.seekp a.length).write (leBytes 8 (8 + rest.length))).write
      (leBytes 8 w.rowCount)).seekp w.snapshot.pos
    sectionPos := none
    rowCount := 0 }, ?_, ?_, rfl⟩
  · rw [Writer.writeEndSection, hpos]
    dsimp only
    rw [hsize]
  · rw [← append_assoc (leBytes 8 _)]
    exact h.patch (by rw [length_append, length_leBytes, length_leBytes, hm])

theorem writeSection_ok {pack : ρ → File} {w : Writer} {a : File} (h : Writer.Between old w a)
    {sec : Section ρ} (hrows : sec.2.length < 2 ^ 64) :
    ∃ w', w.writeSection pack sec = .ok w' ∧
      Writer.Between old w' (a ++ sectionBytes pack sec) := by
  obtain ⟨hat, hpos⟩ := h
  obtain ⟨w1, hopen, hname, hfirst, hzero⟩ : ∃ w1, w.writeStartSection sec.1 = .ok w1 ∧
      OStream.At old w1.snapshot (a ++ leBytes 8 endMarker ++ leBytes 8 endMarker ++ sec.1 ++ [0]) ∧
      w1.sectionPos = some w.snapshot.pos ∧ w1.rowCount = 0 := by
    rw [Writer.writeStartSection, eosAssert, if_pos hpos]
    exact ⟨_, rfl, (((hat.write _).write _).write _).write _, rfl, rfl⟩
  obtain ⟨hbody, hsection, hcount⟩ := @writeRows ρ old pack sec.2 w1 _ hname
    (by rw [hzero, Nat.zero_add]; exact hrows)
  have hparts : a ++ leBytes 8 endMarker ++ leBytes 8 endMarker ++ sec.1 ++ [0] ++
      packRows pack sec.2 = a ++ ((leBytes 8 endMarker ++ leBytes 8 endMarker) ++
        (sec.1 ++ (0 :: packRows pack sec.2))) := by
    simp only [append_assoc, singleton_append]
  rw [hparts] at hbody
  have hstart : w.snapshot.pos = a.length := by
    rw [OStream.At] at hat
    rw [hat]
  obtain ⟨w', hw', hbetween⟩ :=
    writeEndSection_ok hbody (by rw [hsection, hfirst, hstart]) (by simp)
  refine ⟨w', ?_, ?_⟩
  · rw [Writer.writeSection, hopen]
    exact hw'
  · rw [hcount, hzero, Nat.zero_add, length_append, length_cons] at hbetween
    rw [sectionBytes, Nat.add_assoc sec.1.length, Nat.add_comm 1]
    exact hbetween

variable {sections : List (Section ρ)}

/-- What the writer leaves behind `a`: the header, the sections and the end
    marker. -/
theorem writeSnapshot_ok {pack : ρ → File} {snapshot : OStream} {a : File}
    (h : OStream.At old snapshot a) (hrows : ∀ sec ∈ sections, sec.2.length < 2 ^ 64) :
    ∃ out, writeSnapshot pack snapshot sections = .ok out ∧
      OStream.At old out (a ++ (headerBytes ++ bodyBytes pack sections)) := by
  have hrun : ∀ (sections : List (Section ρ)) (w : Writer) (a : File), Writer.Between old w a →
      (∀ sec ∈ sections, sec.2.length < 2 ^ 64) → ∃ w',
        sections.foldlM (Writer.writeSection pack) w = .ok w' ∧
          Writer.Between old w' (a ++ sections.flatMap (sectionBytes pack)) := by
    intro sections
    induction sections with
    | nil =>
      intro w a hw _
      exact ⟨w, rfl, by rw [flatMap_nil, append_nil]; exact hw⟩
    | cons sec sections ih =>
      intro w a hw hrows
      obtain ⟨w1, hw1, hbetween1⟩ :=
        @writeSection_ok ρ old pack w a hw sec (hrows sec mem_cons_self)
      obtain ⟨w2, hw2, hbetween2⟩ := ih w1 _ hbetween1
        fun sec' hsec' => hrows sec' (mem_cons_of_mem sec hsec')
      refine ⟨w2, ?_, ?_⟩
      · rw [foldlM_cons, hw1]
        exact hw2
      · rw [flatMap_cons, ← append_assoc]
        exact hbetween2
  obtain ⟨w, hw, hbetween⟩ := hrun sections _ _ (create_between h) hrows
  refine ⟨w.finalize, ?_, ?_⟩
  · rw [writeSnapshot, hw]
    rfl
  · rw [bodyBytes, ← append_assoc, ← append_assoc]
    exact hbetween.1.write _

/-! ## Finding a section -/

theorem getByte_append (a b : File) (d : UInt8) : getByte (a ++ (d :: b)) a.length = d.toNat := by
  rw [getByte, List.getElem?_append_right (Nat.le_refl _), Nat.sub_self]
  rfl

theorem charValue_eq {c d : UInt8} : (d.toNat : Int) = charValue c ↔ c = d ∧ c.toNat < 128 := by
  have hc := c.toNat_lt
  rw [charValue]
  constructor
  · intro h
    split at h
    · next hlow => exact ⟨UInt8.toNat.inj (by omega), hlow⟩
    · omega
  · rintro ⟨rfl, hlow⟩
    rw [if_pos hlow]

/-- A name is found exactly where it stands in the stream and is made of
    characters below `0x80`. -/
theorem matchName_iff {q : File} (hq : 0 ∉ q) : ∀ {a name b : File}, 0 ∉ name →
    ((matchName (a ++ (name ++ (0 :: b))) q a.length).1 = true ∧
      getByte (a ++ (name ++ (0 :: b))) (matchName (a ++ (name ++ (0 :: b))) q a.length).2 = 0 ↔
        q = name ∧ ∀ c ∈ q, c.toNat < 128) := by
  induction q with
  | nil =>
    intro a name b hname
    cases name with
    | nil =>
      rw [nil_append]
      exact ⟨fun _ => ⟨rfl, fun c hc => absurd hc not_mem_nil⟩,
        fun _ => ⟨rfl, getByte_append a b 0⟩⟩
    | cons d name =>
      rw [cons_append]
      constructor
      · rintro ⟨-, h⟩
        rw [matchName, getByte_append] at h
        have hd : d = 0 := UInt8.toNat.inj (by exact_mod_cast h)
        exact absurd (hd ▸ mem_cons_self) hname
      · rintro ⟨h, -⟩
        cases h
  | cons c q ih =>
    intro a name b hname
    rw [mem_cons, not_or] at hq
    cases name with
    | nil =>
      rw [nil_append, matchName, getByte_append]
      have hne : ((0 : UInt8).toNat : Int) ≠ charValue c := by
        intro h
        exact hq.1 (charValue_eq.mp h).1.symm
      rw [if_pos hne]
      exact iff_of_false (fun h => nomatch h.1) fun h => nomatch h.1
    | cons d name =>
      rw [mem_cons, not_or] at hname
      rw [cons_append, matchName, getByte_append]
      by_cases hcd : (d.toNat : Int) = charValue c
      · rw [if_neg (not_not_intro hcd)]
        obtain ⟨rfl, hlow⟩ := charValue_eq.mp hcd
        have hnext := @ih hq.2 (a ++ [c]) name b hname.2
        rw [append_assoc, singleton_append, length_append, length_singleton] at hnext
        rw [hnext]
        simp only [List.cons.injEq, true_and, mem_cons, forall_eq_or_imp, hlow]
      · rw [if_pos hcd]
        constructor
        · rintro ⟨h, -⟩
          cases h
        · rintro ⟨h, hlow⟩
          obtain ⟨rfl, -⟩ := List.cons.inj h
          exact absurd (charValue_eq.mpr ⟨rfl, hlow c mem_cons_self⟩) hcd

theorem matchName_pos {f : File} (q : File) : ∀ {p : Nat}, (matchName f q p).1 = true →
    (matchName f q p).2 = p + q.length := by
  induction q with
  | nil => exact fun _ => rfl
  | cons c q ih =>
    intro p h
    rw [matchName] at h ⊢
    split at h
    · cases h
    · next hc =>
      rw [if_neg hc, ih h, length_cons]
      omega

section Layout

variable {pack : ρ → File} {f a b : File} {sec : Section ρ}

theorem sectionBytes_length (pack : ρ → File) (sec : Section ρ) : (sectionBytes pack sec).length =
    8 + (8 + (sec.1.length + 1 + (packRows pack sec.2).length)) := by
  simp only [sectionBytes, length_append, length_leBytes, length_cons]
  omega

section

variable (hf : f = a ++ (sectionBytes pack sec ++ b))
include hf

/-- What the reader learns at the start of a section. -/
theorem section_start (hlen : f.length < 2 ^ 63) (hrows : sec.2.length < 2 ^ 64) :
    ∃ size, readLE 8 f a.length = some size ∧ size ≠ endMarker ∧
      skip (a.length + 8) size = some (a ++ sectionBytes pack sec).length ∧
      readLE 8 f (a.length + 8) = some sec.2.length := by
  have hbytes := sectionBytes_length pack sec
  have htotal : (sectionBytes pack sec).length < 2 ^ 63 := by
    rw [hf, length_append, length_append] at hlen
    omega
  refine ⟨8 + (sec.1.length + 1 + (packRows pack sec.2).length), ?_, ?_, ?_, ?_⟩
  · rw [hf, sectionBytes, append_assoc]
    exact readLE_append (by omega) a _
  · rw [endMarker]
    omega
  · rw [skip, toI64_of_fits (by omega) (by omega)]
    rw [if_pos (by omega), length_append, hbytes]
    congr 1
    omega
  · refine @readLE_of_eq f (a ++ leBytes 8 (8 + (sec.1.length + 1 + (packRows pack sec.2).length)))
      ((sec.1 ++ (0 :: packRows pack sec.2)) ++ b) 8 _ _ ?_ ?_ (by omega)
    · rw [hf, sectionBytes]
      simp only [append_assoc]
    · rw [length_append, length_leBytes]

/-- The stream from the name of a section on. -/
theorem section_name :
    ∃ a', a'.length = a.length + 16 ∧ f = a' ++ (sec.1 ++ (0 :: (packRows pack sec.2 ++ b))) := by
  refine ⟨a ++ (leBytes 8 (8 + (sec.1.length + 1 + (packRows pack sec.2).length)) ++
    leBytes 8 sec.2.length), ?_, ?_⟩
  · simp only [length_append, length_leBytes]
  · rw [hf, sectionBytes]
    simp only [append_assoc, cons_append]

/-- The reader stops at the section it looks for, before the first row, and
    passes over a section with another name. -/
theorem findSection_next (hlen : f.length < 2 ^ 63) (hrows : sec.2.length < 2 ^ 64)
    (hname : 0 ∉ sec.1) {q : File} (hq : 0 ∉ q) (fuel : Nat) :
    ∃ a', f = a' ++ (packRows pack sec.2 ++ b) ∧
      ((q = sec.1 ∧ ∀ c ∈ q, c.toNat < 128) →
        findSection f q (fuel + 1) a.length = some (some (sec.2.length, a'.length))) ∧
      (¬ (q = sec.1 ∧ ∀ c ∈ q, c.toNat < 128) → findSection f q (fuel + 1) a.length =
        findSection f q fuel (a ++ sectionBytes pack sec).length) := by
  obtain ⟨size, hsize, hmarker, hskip, hcount⟩ := section_start hf hlen hrows
  obtain ⟨a', ha', hf'⟩ := section_name hf
  have hmatch := @matchName_iff q hq a' sec.1 (packRows pack sec.2 ++ b) hname
  rw [← hf', ha'] at hmatch
  rw [findSection, hsize]
  dsimp only [Option.bind_eq_bind, Option.bind_some]
  rw [if_neg hmarker, hskip, hcount]
  dsimp only [Option.bind_some]
  simp only [Bool.and_eq_true, beq_iff_eq, hmatch]
  refine ⟨a' ++ (sec.1 ++ [0]), ?_, fun hfound => ?_, fun hother => if_neg hother⟩
  · rw [hf']
    simp only [append_assoc, singleton_append]
  · rw [if_pos hfound, matchName_pos q (hmatch.mpr hfound).1, hfound.1]
    simp only [length_append, length_singleton, ha', Nat.add_assoc]

end

/-- At the end marker the search is over. -/
theorem findSection_end (hf : f = a ++ (leBytes 8 endMarker ++ b)) (q : File) (fuel : Nat) :
    findSection f q (fuel + 1) a.length = some none := by
  rw [findSection, readLE_of_eq hf rfl (by decide)]
  rfl

/-- What holds of the sections of a snapshot in a stream. -/
structure Layout (pack : ρ → File) (f a : File) (sections : List (Section ρ)) (b : File) :
    Prop where
  bytes : f = a ++ (bodyBytes pack sections ++ b)
  length : f.length < 2 ^ 63
  rows : ∀ sec ∈ sections, sec.2.length < 2 ^ 64
  names : ∀ sec ∈ sections, 0 ∉ sec.1

theorem Layout.head (h : Layout pack f a (sec :: sections) b) :
    f = a ++ (sectionBytes pack sec ++ (bodyBytes pack sections ++ b)) := by
  rw [h.bytes, bodyBytes, bodyBytes, flatMap_cons]
  simp only [append_assoc]

theorem Layout.tail (h : Layout pack f a (sec :: sections) b) :
    Layout pack f (a ++ sectionBytes pack sec) sections b where
  bytes := by rw [h.head, append_assoc]
  length := h.length
  rows := fun sec' hsec' => h.rows sec' (mem_cons_of_mem sec hsec')
  names := fun sec' hsec' => h.names sec' (mem_cons_of_mem sec hsec')

/-- A name that was not written, or that has a byte from `0x80` on, is not
    found. -/
theorem findSection_missing {q : File} (hq : 0 ∉ q) (sections : List (Section ρ)) :
    ∀ {a : File} {fuel : Nat}, Layout pack f a sections b → sections.length < fuel →
      ¬ (q ∈ sections.map Prod.fst ∧ ∀ c ∈ q, c.toNat < 128) →
      findSection f q fuel a.length = some none := by
  induction sections with
  | nil =>
    intro a fuel h hfuel _
    obtain ⟨k, rfl⟩ := Nat.exists_eq_add_of_lt hfuel
    exact findSection_end h.bytes q _
  | cons sec sections ih =>
    intro a fuel h hfuel hmissing
    rw [length_cons] at hfuel
    obtain ⟨k, rfl⟩ := Nat.exists_eq_add_of_lt hfuel
    obtain ⟨_, -, -, hother⟩ := findSection_next h.head h.length (h.rows sec mem_cons_self)
      (h.names sec mem_cons_self) hq _
    rw [hother]
    · refine ih h.tail (by omega) ?_
      rintro ⟨hmem, hlow⟩
      exact hmissing ⟨mem_cons_of_mem _ hmem, hlow⟩
    · rintro ⟨rfl, hlow⟩
      exact hmissing ⟨mem_cons_self, hlow⟩

/-- A section that was written under a name below `0x80` is found, before its
    first row. -/
theorem findSection_written {q : File} (hlow : ∀ c ∈ q, c.toNat < 128) {rows : List ρ}
    (sections : List (Section ρ)) : ∀ {a : File} {fuel : Nat}, Layout pack f a sections b →
      sections.length < fuel → sections.lookup q = some rows →
      ∃ a' b', f = a' ++ (packRows pack rows ++ b') ∧
        findSection f q fuel a.length = some (some (rows.length, a'.length)) := by
  induction sections with
  | nil =>
    intro a fuel _ _ hlookup
    cases hlookup
  | cons sec sections ih =>
    intro a fuel h hfuel hlookup
    rw [length_cons] at hfuel
    obtain ⟨k, rfl⟩ := Nat.exists_eq_add_of_lt hfuel
    obtain ⟨name, rows'⟩ := sec
    have hrows' := h.rows _ mem_cons_self
    have hname := h.names _ mem_cons_self
    rw [lookup_cons] at hlookup
    by_cases heq : q = name
    · subst heq
      rw [beq_self_eq_true] at hlookup
      obtain rfl := Option.some.inj hlookup
      obtain ⟨a', hf', hfound, -⟩ := findSection_next h.head h.length hrows' hname hname _
      exact ⟨a', _, hf', hfound ⟨rfl, hlow⟩⟩
    · rw [beq_eq_false_iff_ne.mpr heq] at hlookup
      have hq : 0 ∉ q := by
        obtain ⟨l1, l2, rfl, -⟩ := lookup_eq_some_iff.mp hlookup
        exact h.names (q, rows) (by simp)
      obtain ⟨_, -, -, hother⟩ := findSection_next h.head h.length hrows' hname hq _
      rw [hother fun hmatch => heq hmatch.1]
      exact ih h.tail (by omega) hlookup

theorem validateSections_ok (sections : List (Section ρ)) : ∀ {a : File} {fuel : Nat},
    Layout pack f a sections b → sections.length < fuel →
      validateSections f fuel a.length = some () := by
  induction sections with
  | nil =>
    intro a fuel h hfuel
    obtain ⟨k, rfl⟩ := Nat.exists_eq_add_of_lt hfuel
    rw [validateSections, readLE_of_eq h.bytes rfl (by decide)]
    rfl
  | cons sec sections ih =>
    intro a fuel h hfuel
    rw [length_cons] at hfuel
    obtain ⟨k, rfl⟩ := Nat.exists_eq_add_of_lt hfuel
    obtain ⟨size, hsize, hmarker, hskip, -⟩ :=
      section_start h.head h.length (h.rows sec mem_cons_self)
    rw [validateSections, hsize]
    dsimp only [Option.bind_eq_bind, Option.bind_some]
    rw [if_neg hmarker, hskip]
    exact ih h.tail (by omega)

theorem sections_length_le (pack : ρ → File) (sections : List (Section ρ)) :
    sections.length ≤ (bodyBytes pack sections).length := by
  induction sections with
  | nil => exact Nat.zero_le _
  | cons sec sections ih =>
    rw [bodyBytes, flatMap_cons, append_assoc, length_append, length_cons, sectionBytes_length]
    rw [bodyBytes] at ih
    omega

theorem Layout.fuel (h : Layout pack f a sections b) : sections.length < f.length + 1 := by
  have hle := sections_length_le pack sections
  rw [h.bytes, length_append, length_append]
  omega

end Layout

/-! ## Reading in any order -/

/-- How rows are packed and unpacked.  The sections may hold rows of several
    types, and the reader names the type it expects. -/
structure RowCodec (ρ κ : Type) where
  pack : ρ → File
  kind : ρ → κ
  unpack : κ → File → Option (ρ × File)
  unpack_pack : ∀ row rest, unpack (kind row) (pack row ++ rest) = some (row, rest)

/-- What is asked of a reader. -/
inductive Op (κ : Type) where
  | hasSection (name : File)
  | setSection (name : File)
  | readRow (kind : κ)

/-- What it answers. -/
inductive Answer (ρ : Type) where
  | has (there : Bool)
  | opened
  | row (row : ρ) (more : Bool)

/-- The reader. -/
def Reader.step (c : RowCodec ρ κ) (f : File) (r : Reader) : Op κ → Option (Answer ρ × Reader)
  | .hasSection name => (r.hasSection f name).map fun there => (.has there, r)
  | .setSection name => (r.setSection f name).toOption.map fun r' => (.opened, r')
  | .readRow kind => (r.readRow f (c.unpack kind)).map fun p => (.row p.1.1 p.1.2, p.2)

/-- What was written, read by name, and the rows of the open section that are
    still to come.  A name has no zero in it, and a row is read as what it is,
    as long as there are rows. -/
def expectedStep (c : RowCodec ρ κ) [DecidableEq κ] (sections : List (Section ρ)) :
    List ρ → Op κ → Option (Answer ρ × List ρ)
  | rows, .hasSection name =>
    if 0 ∈ name then none else some (.has (decide (name ∈ sections.map Prod.fst)), rows)
  | _, .setSection name => (sections.lookup name).map fun rows => (.opened, rows)
  | [], .readRow _ => none
  | row :: rows, .readRow kind =>
    if kind = c.kind row then some (.row row (!rows.isEmpty), rows) else none

/-- The answers to a series of requests. -/
def answers {σ α β : Type} (step : σ → α → Option (β × σ)) : σ → List α → Option (List β)
  | _, [] => some []
  | s, op :: ops => do
      let (b, s) ← step s op
      let bs ← answers step s ops
      some (b :: bs)

/-- The reader stands before the rows that are still to come. -/
structure Reader.Before (c : RowCodec ρ κ) (f : File) (headerPos : Nat) (r : Reader)
    (rows : List ρ) : Prop where
  header : r.headerPos = headerPos
  bytes : ∃ a b, f = a ++ (packRows c.pack rows ++ b) ∧ r.pos = a.length
  count : r.numRows = r.curRow + rows.length

/-- One request, answered as expected. -/
theorem step_expected (c : RowCodec ρ κ) [DecidableEq κ] {f a b : File}
    (h : Layout c.pack f (a ++ headerBytes) sections b)
    (hlow : ∀ sec ∈ sections, ∀ ch ∈ sec.1, ch.toNat < 128) {r : Reader} {rows rows' : List ρ}
    (hr : r.Before c f a.length rows) {op : Op κ} {answer : Answer ρ}
    (hop : expectedStep c sections rows op = some (answer, rows')) :
    ∃ r', r.step c f op = some (answer, r') ∧ r'.Before c f a.length rows' := by
  have hstart : r.headerPos + 8 = (a ++ headerBytes).length := by
    rw [hr.header, length_append]
    rfl
  cases op with
  | hasSection name =>
    rw [expectedStep] at hop
    split at hop
    · cases hop
    · next hnul =>
      obtain ⟨rfl, rfl⟩ := Prod.mk.inj (Option.some.inj hop)
      refine ⟨r, ?_, hr⟩
      rw [Reader.step, Reader.hasSection, Reader.find, hstart]
      by_cases hmem : name ∈ sections.map Prod.fst
      · obtain ⟨sec, hsec, rfl⟩ := mem_map.mp hmem
        obtain ⟨rows1, hrows1⟩ := Option.ne_none_iff_exists'.mp fun hnone =>
          bne_iff_ne.mp (lookup_eq_none_iff.mp hnone sec hsec) rfl
        obtain ⟨a', b', -, hfound⟩ := findSection_written (hlow sec hsec) sections h h.fuel hrows1
        rw [hfound, decide_eq_true hmem]
        rfl
      · rw [findSection_missing hnul sections h h.fuel fun hnot => hmem hnot.1,
          decide_eq_false hmem]
        rfl
  | setSection name =>
    obtain ⟨rows1, hrows1, heq⟩ := Option.map_eq_some_iff.mp hop
    obtain ⟨rfl, rfl⟩ := Prod.mk.inj heq
    obtain ⟨l1, l2, hl, -⟩ := lookup_eq_some_iff.mp hrows1
    have hname := hlow (name, rows1) (by rw [hl]; simp)
    obtain ⟨a', b', hf', hfound⟩ := findSection_written hname sections h h.fuel hrows1
    refine ⟨{ r with pos := a'.length, numRows := rows1.length, curRow := 0 }, ?_, ?_⟩
    · rw [Reader.step, Reader.setSection, Reader.find, hstart, hfound]
      rfl
    · exact ⟨hr.header, ⟨a', b', hf', rfl⟩, (Nat.zero_add _).symm⟩
  | readRow kind =>
    cases rows with
    | nil => cases hop
    | cons row rows =>
      rw [expectedStep] at hop
      split at hop
      · next hkind =>
        obtain ⟨rfl, rfl⟩ := Prod.mk.inj (Option.some.inj hop)
        obtain ⟨a', b', hf', hpos⟩ := hr.bytes
        rw [packRows, flatMap_cons, append_assoc] at hf'
        have hread : c.unpack kind (f.drop r.pos) = some (row, packRows c.pack rows ++ b') := by
          rw [hpos, hf', drop_left, hkind]
          exact c.unpack_pack row _
        have hcount := hr.count
        rw [length_cons] at hcount
        refine ⟨{ r with pos := (a' ++ c.pack row).length, curRow := r.curRow + 1 }, ?_, ?_⟩
        · rw [Reader.step, Reader.readRow, hread]
          dsimp only [Option.bind_eq_bind, Option.bind_some, Option.map_some]
          have hmore : decide (r.curRow + 1 < r.numRows) = !rows.isEmpty := by
            cases rows with
            | nil =>
              rw [hcount]
              exact decide_eq_false (by simp)
            | cons _ _ =>
              rw [hcount]
              exact decide_eq_true (by rw [length_cons]; omega)
          have hnext : f.length - (packRows c.pack rows ++ b').length =
              (a' ++ c.pack row).length := by
            rw [hf', packRows]
            simp only [length_append]
            omega
          rw [hmore, hnext]
        · refine ⟨hr.header, ⟨a' ++ c.pack row, b', ?_, rfl⟩, ?_⟩
          · rw [hf', packRows, append_assoc]
          · dsimp only
            omega
      · cases hop

/-- Any series of requests, answered as expected. -/
theorem answers_expected (c : RowCodec ρ κ) [DecidableEq κ] {f a b : File}
    (h : Layout c.pack f (a ++ headerBytes) sections b)
    (hlow : ∀ sec ∈ sections, ∀ ch ∈ sec.1, ch.toNat < 128) (ops : List (Op κ)) :
    ∀ {r : Reader} {rows : List ρ} {bs : List (Answer ρ)}, r.Before c f a.length rows →
      answers (expectedStep c sections) rows ops = some bs →
      answers (fun r => r.step c f) r ops = some bs := by
  induction ops with
  | nil =>
    intro r rows bs _ hbs
    exact hbs
  | cons op ops ih =>
    intro r rows bs hr hbs
    obtain ⟨⟨answer, rows'⟩, hop, hbs⟩ := Option.bind_eq_some_iff.mp hbs
    obtain ⟨others, hothers, hbs⟩ := Option.bind_eq_some_iff.mp hbs
    obtain ⟨r', hstep, hr'⟩ := step_expected c h hlow hr hop
    rw [answers, hstep]
    dsimp only [Option.bind_eq_bind, Option.bind_some]
    rw [ih hr' hothers]
    exact hbs

theorem validate_ok {pack : ρ → File} {f a b : File}
    (h : Layout pack f (a ++ headerBytes) sections b) :
    (Reader.create a.length).validate f = .ok () := by
  have hf : f = a ++ (leBytes 4 magicNumber ++ (leBytes 4 currentSnapshotVersion ++
      (bodyBytes pack sections ++ b))) := by
    rw [h.bytes, headerBytes]
    simp only [append_assoc]
  have htotem : readLE 4 f a.length = some magicNumber := readLE_of_eq hf rfl (by decide)
  have hversion : readLE 4 f (a.length + 4) = some currentSnapshotVersion := by
    rw [← append_assoc] at hf
    exact readLE_of_eq hf (by rw [length_append, length_leBytes]) (by decide)
  have hsections := validateSections_ok sections h h.fuel
  rw [length_append] at hsections
  rw [Reader.validate]
  dsimp only [Reader.create]
  rw [htotem, hversion, show a.length + 8 = a.length + headerBytes.length from rfl, hsections]
  rfl

/-- The snapshot container.  On whatever stream the sections are written, with
    names without zeros, `validate` accepts it; and the reader, asked for
    sections and rows in any order, answers as the sections were written
    exactly if no name has a byte from `0x80` on.  Of two sections with one
    name it is the first that is read. -/
theorem snapshot_read_iff (c : RowCodec ρ κ) [DecidableEq κ] (snapshot : OStream)
    (hpos : snapshot.pos ≤ snapshot.bytes.length) (sections : List (Section ρ))
    (hnames : ∀ sec ∈ sections, 0 ∉ sec.1) (hrows : ∀ sec ∈ sections, sec.2.length < 2 ^ 64)
    (hold : snapshot.bytes.length < 2 ^ 63)
    (hnew : snapshot.pos + (headerBytes ++ bodyBytes c.pack sections).length < 2 ^ 63) :
    ∃ out, writeSnapshot c.pack snapshot sections = .ok out ∧
      (Reader.create snapshot.pos).validate out.bytes = .ok () ∧
      ((∀ ops bs, answers (expectedStep c sections) [] ops = some bs →
        answers (fun r => r.step c out.bytes) (Reader.create snapshot.pos) ops = some bs) ↔
        ∀ sec ∈ sections, ∀ ch ∈ sec.1, ch.toNat < 128) := by
  have hlength : (snapshot.bytes.take snapshot.pos).length = snapshot.pos := by
    rw [length_take, Nat.min_eq_left hpos]
  have hat : OStream.At snapshot.bytes snapshot (snapshot.bytes.take snapshot.pos) := by
    rw [OStream.At, hlength, take_append_drop]
  obtain ⟨out, hout, hend⟩ := @writeSnapshot_ok ρ _ sections c.pack _ _ hat hrows
  rw [OStream.At] at hend
  have hlayout : Layout c.pack out.bytes (snapshot.bytes.take snapshot.pos ++ headerBytes) sections
      (snapshot.bytes.drop (snapshot.pos + (headerBytes ++ bodyBytes c.pack sections).length)) := by
    refine ⟨?_, ?_, hrows, hnames⟩
    · rw [hend]
      simp only [length_append, hlength, append_assoc]
    · rw [hend, length_append, length_drop, length_append, hlength]
      omega
  have hvalid := validate_ok hlayout
  rw [hlength] at hvalid
  refine ⟨out, hout, hvalid, ?_, ?_⟩
  · intro hall sec hsec ch hch
    by_contra hhigh
    -- a name with such a byte is in the snapshot, and the reader does not find it
    have hmem : sec.1 ∈ sections.map Prod.fst := mem_map_of_mem hsec
    have hmissing := findSection_missing (hnames sec hsec) sections hlayout hlayout.fuel
      fun hfound => hhigh (hfound.2 ch hch)
    have hexpected := hall [.hasSection sec.1] [.has true] (by
      rw [answers, expectedStep, if_neg (hnames sec hsec), decide_eq_true hmem]
      rfl)
    rw [length_append, hlength] at hmissing
    have hhas : (Reader.create snapshot.pos).hasSection out.bytes sec.1 = some false := by
      rw [Reader.hasSection, Reader.find]
      exact congrArg (Option.map Option.isSome) hmissing
    rw [answers, Reader.step, hhas] at hexpected
    cases hexpected
  · intro hlow ops bs hbs
    refine answers_expected c hlayout hlow ops ?_ hbs
    rw [hlength]
    exact ⟨rfl, ⟨snapshot.bytes.take snapshot.pos, _, by
      rw [hlayout.bytes, packRows, flatMap_nil, nil_append, append_assoc],
      hlength.symm⟩, rfl⟩

/-- Rows of one byte. -/
def byteRow : RowCodec UInt8 Unit where
  pack row := [row]
  kind _ := ()
  unpack _ f := f.head?.map fun row => (row, f.tail)
  unpack_pack _ _ := rfl

/-- Two sections, written behind a byte that is already in the stream. -/
theorem snapshot_read_iff_two : ∃ out,
    writeSnapshot byteRow.pack ⟨[9], 1⟩ [([97], [1, 2]), ([98], [])] = .ok out ∧
      (Reader.create 1).validate out.bytes = .ok () ∧
      ((∀ ops bs, answers (expectedStep byteRow [([97], [1, 2]), ([98], [])]) [] ops = some bs →
        answers (fun r => r.step byteRow out.bytes) (Reader.create 1) ops = some bs) ↔
        ∀ sec ∈ ([([97], [1, 2]), ([98], [])] : List (Section UInt8)),
          ∀ ch ∈ sec.1, ch.toNat < 128) :=
  snapshot_read_iff byteRow ⟨[9], 1⟩ (by decide) [([97], [1, 2]), ([98], [])] (by decide)
    (by decide) (by decide) (by decide)

/-- A section named "é": it is written, the snapshot is valid, and the reader
    says that there is no such section. -/
theorem accented_section_missing : ∃ out,
    writeSnapshot byteRow.pack ⟨[], 0⟩ [([0xC3, 0xA9], [7])] = .ok out ∧
      (Reader.create 0).validate out.bytes = .ok () ∧
      (Reader.create 0).hasSection out.bytes [0xC3, 0xA9] = some false ∧
      (Reader.create 0).setSection out.bytes [0xC3, 0xA9] =
        .error ⟨.snapshot, "Binary snapshot has no section named $\x7bn\x7d"⟩ :=
  ⟨_, rfl, rfl, rfl, rfl⟩

end SnapshotStream
