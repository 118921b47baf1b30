import EosForce.ByteFileProofs

/-! # Logs of records with their positions

    A log keeps its records one after the other, each followed by the position
    where it starts, so that the log can be read from its end; an index keeps
    the positions alone, so that the `i`-th record is found at once.  The log
    may start behind a header: positions count from the start of the file. -/

namespace PositionLog

open ByteFile List

/-- The records from a position on, each with its position behind it. -/
def logBytes : Nat → List File → File
  | _, [] => []
  | pos, r :: rs => r ++ (leBytes 8 pos ++ logBytes (pos + (r.length + 8)) rs)

/-- Where the records start. -/
def positions : Nat → List File → List Nat
  | _, [] => []
  | pos, r :: rs => pos :: positions (pos + (r.length + 8)) rs

/-- The index: the positions, eight bytes each. -/
def indexBytes (ps : List Nat) : File := ps.flatMap (leBytes 8)

/-! ## The log in parts -/

variable (pos : Nat)

theorem logBytes_append (rs ss : List File) :
    logBytes pos (rs ++ ss) = logBytes pos rs ++ logBytes (pos + (logBytes pos rs).length) ss := by
  induction rs generalizing pos with
  | nil => rfl
  | cons r rs ih =>
    rw [cons_append, logBytes, logBytes, ih]
    simp only [append_assoc, length_append, length_leBytes, Nat.add_assoc]

theorem positions_append (rs ss : List File) :
    positions pos (rs ++ ss) =
      positions pos rs ++ positions (pos + (logBytes pos rs).length) ss := by
  induction rs generalizing pos with
  | nil => rfl
  | cons r rs ih =>
    rw [cons_append, positions, positions, logBytes, ih]
    simp only [cons_append, length_append, length_leBytes, Nat.add_assoc]

theorem logBytes_singleton (r : File) : logBytes pos [r] = r ++ leBytes 8 pos := by
  rw [logBytes, logBytes, append_nil]

variable (rs : List File)

@[simp] theorem length_positions : (positions pos rs).length = rs.length := by
  induction rs generalizing pos with
  | nil => rfl
  | cons r rs ih => rw [positions, length_cons, ih, length_cons]

theorem length_le_logBytes : 8 * rs.length ≤ (logBytes pos rs).length := by
  induction rs generalizing pos with
  | nil => exact Nat.zero_le _
  | cons r rs ih =>
    have hrest := ih (pos + (r.length + 8))
    rw [logBytes, length_append, length_append, length_leBytes, length_cons]
    omega

/-- The log of records of one size. -/
theorem length_logBytes_of_size {k : Nat} {rs : List File} (h : ∀ r ∈ rs, r.length = k)
    (pos : Nat) :
    (logBytes pos rs).length = rs.length * (k + 8) := by
  induction rs generalizing pos with
  | nil => exact (Nat.zero_mul _).symm
  | cons r rs ih =>
    rw [logBytes, length_append, length_append, length_leBytes,
      ih (fun r' hr' => h r' (mem_cons_of_mem r hr')), h r mem_cons_self,
      length_cons, Nat.succ_mul]
    omega

/-- A record is between those before it and its position. -/
theorem logBytes_split {rs : List File} {i : Nat} {r : File} (h : rs[i]? = some r) (pos : Nat) :
    ∃ rest, logBytes pos rs = logBytes pos (rs.take i) ++
      (r ++ (leBytes 8 (pos + (logBytes pos (rs.take i)).length) ++ rest)) := by
  obtain ⟨hi, rfl⟩ := List.getElem?_eq_some_iff.mp h
  have hparts := logBytes_append pos (rs.take i) (rs.drop i)
  rw [take_append_drop, drop_eq_getElem_cons hi, logBytes] at hparts
  exact ⟨_, hparts⟩

/-- The position of a record is where those before it end. -/
theorem positions_get {rs : List File} {i : Nat} (h : i < rs.length) (pos : Nat) :
    (positions pos rs)[i]? = some (pos + (logBytes pos (rs.take i)).length) := by
  conv_lhs => rw [← take_append_drop i rs, positions_append, drop_eq_getElem_cons h]
  have hi : (positions pos (rs.take i)).length = i := by
    rw [length_positions, length_take, Nat.min_eq_left (Nat.le_of_lt h)]
  rw [List.getElem?_append_right (Nat.le_of_eq hi), hi, Nat.sub_self]
  rfl

/-- The records from the `i`-th on are cut off at its position. -/
theorem take_logBytes (i : Nat) :
    (logBytes pos rs).take (logBytes pos (rs.take i)).length = logBytes pos (rs.take i) := by
  conv_lhs => rw [← take_append_drop i rs]
  rw [logBytes_append, take_append_drop, take_left]

/-! ## The index in parts -/

theorem indexBytes_append (ps qs : List Nat) :
    indexBytes (ps ++ qs) = indexBytes ps ++ indexBytes qs :=
  flatMap_append

theorem indexBytes_cons (p : Nat) (ps : List Nat) :
    indexBytes (p :: ps) = leBytes 8 p ++ indexBytes ps :=
  flatMap_cons

@[simp] theorem length_indexBytes (ps : List Nat) : (indexBytes ps).length = 8 * ps.length := by
  induction ps with
  | nil => rfl
  | cons p ps ih =>
    rw [indexBytes_cons, length_append, length_leBytes, ih, length_cons]
    omega

/-- The `i`-th position is read at eight bytes an entry. -/
theorem readLE_indexBytes {ps : List Nat} {i p : Nat} (h : ps[i]? = some p) (hp : p < 2 ^ 64) :
    readLE 8 (indexBytes ps) (8 * i) = some p := by
  obtain ⟨hi, rfl⟩ := List.getElem?_eq_some_iff.mp h
  have hlength : (indexBytes (ps.take i)).length = 8 * i := by
    rw [length_indexBytes, length_take, Nat.min_eq_left (Nat.le_of_lt hi)]
  conv_lhs => rw [← take_append_drop i ps, indexBytes_append, drop_eq_getElem_cons hi,
    indexBytes_cons, ← hlength]
  exact readLE_append hp _ _

/-- The entries from the `i`-th on are cut off at eight bytes an entry. -/
theorem take_indexBytes (ps : List Nat) (i : Nat) :
    (indexBytes ps).take (8 * i) = indexBytes (ps.take i) := by
  by_cases hi : i ≤ ps.length
  · have hlength : (indexBytes (ps.take i)).length = 8 * i := by
      rw [length_indexBytes, length_take, Nat.min_eq_left hi]
    conv_lhs => rw [← take_append_drop i ps, indexBytes_append, ← hlength]
    rw [take_left]
  · have hle : ps.length ≤ i := by omega
    rw [take_of_length_le (by rw [length_indexBytes]; omega), take_of_length_le hle]

/-- The positions of the first records. -/
theorem positions_take (i : Nat) : positions pos (rs.take i) = (positions pos rs).take i := by
  induction rs generalizing pos i with
  | nil => rw [take_nil, positions, take_nil]
  | cons r rs ih =>
    cases i with
    | zero => rfl
    | succ i => rw [take_succ_cons, positions, positions, take_succ_cons, ih]

end PositionLog
