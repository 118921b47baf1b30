import Mathlib.Algebra.Order.Ring.Nat

/-! # Files of bytes

    A file is the list of its bytes.  What is read or written at a position is
    said for a file that is given in parts, `a ++ (d ++ b)`, at the length of
    the first: positions are then lengths, and a proof about a file's layout
    only regroups its parts. -/

namespace ByteFile

abbrev File := List UInt8

/-! ## Numbers -/

/-- The number in `w` bytes, the lowest first. -/
def leBytes : Nat → Nat → File
  | 0, _ => []
  | w + 1, v => UInt8.ofNat (v % 256) :: leBytes w (v / 256)

/-- The number that the bytes stand for, the lowest first. -/
def ofLE : File → Nat
  | [] => 0
  | b :: bs => b.toNat + 256 * ofLE bs

@[simp] theorem length_leBytes (w v : Nat) : (leBytes w v).length = w := by
  induction w generalizing v with
  | zero => rfl
  | succ w ih => rw [leBytes, List.length_cons, ih]

theorem ofLE_leBytes (w v : Nat) : ofLE (leBytes w v) = v % 256 ^ w := by
  induction w generalizing v with
  | zero => rw [leBytes, ofLE, Nat.pow_zero, Nat.mod_one]
  | succ w ih =>
    have hsplit : v % 256 ^ (w + 1) = v % 256 + 256 * (v / 256 % 256 ^ w) := by
      rw [Nat.pow_succ', Nat.mod_mul]
    rw [leBytes, ofLE, ih, UInt8.toNat_ofNat', hsplit]
    omega

/-! ## Reading and writing at a position -/

/-- The `len` bytes at a position. -/
def readAt (f : File) (pos len : Nat) : Option File :=
  if pos + len ≤ f.length then some ((f.drop pos).take len) else none

theorem readAt_append (a d b : File) : readAt (a ++ (d ++ b)) a.length d.length = some d := by
  rw [readAt, if_pos (by rw [List.length_append, List.length_append]; omega), List.drop_left,
    List.take_left]

/-- The number in the `w` bytes at a position. -/
def readLE (w : Nat) (f : File) (pos : Nat) : Option Nat :=
  (readAt f pos w).map ofLE

theorem readLE_append {w v : Nat} (hv : v < 256 ^ w) (a b : File) :
    readLE w (a ++ (leBytes w v ++ b)) a.length = some v := by
  have h := readAt_append a (leBytes w v) b
  rw [length_leBytes] at h
  rw [readLE, h, Option.map_some, ofLE_leBytes, Nat.mod_eq_of_lt hv]

theorem readLE_of_eq {f a b : File} {w v pos : Nat} (hf : f = a ++ (leBytes w v ++ b))
    (hpos : pos = a.length) (hv : v < 256 ^ w) : readLE w f pos = some v := by
  rw [hf, hpos]
  exact readLE_append hv a b

/-- The file with bytes written at a position; what lies between the end of
    the file and the position is filled with zeros. -/
def writeAt (f : File) (pos : Nat) (d : File) : File :=
  f.take pos ++ List.replicate (pos - f.length) 0 ++ (d ++ f.drop (pos + d.length))

theorem writeAt_append (a b d : File) :
    writeAt (a ++ b) a.length d = a ++ (d ++ b.drop d.length) := by
  have hfill : a.length - (a ++ b).length = 0 := by
    rw [List.length_append]
    omega
  rw [writeAt, List.take_left, hfill, List.replicate_zero, List.append_nil, List.drop_append,
    List.drop_eq_nil_of_le (Nat.le_add_right _ _), Nat.add_sub_cancel_left, List.nil_append]

/-- The file with bytes added at its end; an offset is a signed number of 64
    bits, and no file grows past the largest. -/
def extend (f d : File) : Option File :=
  if f.length + d.length < 2 ^ 63 then some (f ++ d) else none

theorem extend_some {f d f' : File} (h : extend f d = some f') :
    f' = f ++ d ∧ f'.length < 2 ^ 63 := by
  rw [extend] at h
  split at h
  · next hlt =>
    cases h
    exact ⟨rfl, by rw [List.length_append]; exact hlt⟩
  · cases h

/-- The file cut off at a size, or filled up with zeros. -/
def resize (f : File) (size : Nat) : File :=
  f.take size ++ List.replicate (size - f.length) 0

theorem resize_of_le {f : File} {size : Nat} (h : size ≤ f.length) :
    resize f size = f.take size := by
  rw [resize, Nat.sub_eq_zero_of_le h, List.replicate_zero, List.append_nil]

end ByteFile
