import EosForce.ChainTypesProofs
import Mathlib.Data.List.DropRight

/-! # Names as text

    Twelve characters of five bits and one of four make up the 64 bits of a
    name.  `to_string` writes the lowest character first and trims the dots at
    the end, `string_to_uint64_t` reads the highest first and stops at the end
    of the text. -/

namespace NameText

open ChainTypes

/-- `char_to_symbol`. -/
def charToSymbol (c : Char) : Nat :=
  if 'a' ≤ c ∧ c ≤ 'z' then c.toNat - 'a'.toNat + 6
  else if '1' ≤ c ∧ c ≤ '5' then c.toNat - '1'.toNat + 1
  else 0

/-- The loop of `string_to_uint64_t` with `k` rounds to go, and what follows
    it: the zero behind the text, or one inside of it, ends the loop. -/
def packFrom : Nat → List Char → Nat → Nat
  | 0, str, n => n ||| (charToSymbol (str.headD '\x00') &&& 0x0F)
  | k + 1, str, n =>
    if str.headD '\x00' = '\x00' then n
    else packFrom k str.tail (n ||| (charToSymbol (str.headD '\x00') &&& 0x1f) <<< (5 * k + 4))

/-- `string_to_uint64_t`. -/
def stringToUint64 (str : List Char) : UInt64 := .ofNat (packFrom 12 str 0)

def charmap : List Char := ".12345abcdefghijklmnopqrstuvwxyz".toList

/-- The rounds of the loop of `to_string` behind the first. -/
def printLoop : Nat → Nat → List Char → List Char
  | 0, _, str => str
  | k + 1, tmp, str => printLoop k (tmp >>> 5) (charmap.getD (tmp &&& 0x1f) '.' :: str)

/-- `name::to_string`. -/
def toText (name : Name) : List Char :=
  let tmp := name.value.toNat
  (printLoop 12 (tmp >>> 4) [charmap.getD (tmp &&& 0x0f) '.']).rdropWhile (· = '.')

/-- `name::set`, which the constructor from a string calls. -/
def set (str : List Char) : Except FcException Name := do
  eosAssert (str.length ≤ 13) .nameType "Name is longer than 13 characters ($\x7bname\x7d) "
  let name : Name := ⟨stringToUint64 str⟩
  eosAssert (toText name = str) .nameType
    "Name not properly normalized (name: $\x7bname\x7d, normalized: $\x7bnormalized\x7d) "
  pure name

/-- The characters of the lowest bits: `k` of five bits and one of four. -/
def chars (v : Nat) : Nat → List Char
  | 0 => [charmap.getD (v % 16) '.']
  | k + 1 => charmap.getD (v / 2 ^ (5 * k + 4) % 32) '.' :: chars v k

theorem printLoop_chars (v k : Nat) : ∀ j,
    printLoop k (v / 2 ^ (5 * j + 4)) (chars v j) = chars v (j + k) := by
  induction k with
  | zero => exact fun j => rfl
  | succ k ih =>
    intro j
    rw [printLoop, Nat.and_two_pow_sub_one_eq_mod _ 5, Nat.shiftRight_eq_div_pow,
      Nat.div_div_eq_div_mul, ← Nat.pow_add]
    exact (ih (j + 1)).trans (congrArg (chars v) (by omega))

theorem toText_eq (name : Name) :
    toText name = (chars name.value.toNat 12).rdropWhile (· = '.') := by
  rw [toText, Nat.and_two_pow_sub_one_eq_mod _ 4, Nat.shiftRight_eq_div_pow]
  exact congrArg _ (printLoop_chars name.value.toNat 12 0)

/-- A character stands for its own number, and only the dot for zero. -/
theorem charmap_spec {d : Nat} (h : d < 32) : charToSymbol (charmap.getD d '.') = d ∧
    charmap.getD d '.' ≠ '\x00' ∧ (charmap.getD d '.' = '.' → d = 0) := by
  revert d
  decide

theorem trim_cons (x : Char) (l : List Char) :
    (x :: l).rdropWhile (· = '.') = x :: l.rdropWhile (· = '.') ∨
      x = '.' ∧ l.rdropWhile (· = '.') = [] ∧ (x :: l).rdropWhile (· = '.') = [] := by
  simp only [List.rdropWhile, List.reverse_cons, List.dropWhile_append, List.isEmpty_iff,
    List.reverse_eq_nil_iff]
  split
  · next hnil => by_cases hx : x = '.' <;> simp [hx, hnil]
  · simp

theorem packFrom_nil (k n : Nat) : packFrom k [] n = n := by
  cases k with
  | zero => exact Nat.or_zero n
  | succ k => rfl

theorem mod_next (v k : Nat) : v % 2 ^ (5 * (k + 1) + 4) =
    (v / 2 ^ (5 * k + 4) % 32) <<< (5 * k + 4) ||| v % 2 ^ (5 * k + 4) := by
  rw [← Nat.shiftLeft_add_eq_or_of_lt (Nat.mod_lt _ (Nat.two_pow_pos _)), Nat.shiftLeft_eq,
    show 5 * (k + 1) + 4 = 5 * k + 4 + 5 by omega, Nat.pow_add, Nat.mod_mul, Nat.add_comm,
    Nat.mul_comm]

/-- What is written of the lowest bits is read as their number: the dots that
    were trimmed stand for zeros, like the end of the text. -/
theorem packFrom_chars (v k : Nat) : ∀ n,
    packFrom k ((chars v k).rdropWhile (· = '.')) n = n ||| v % 2 ^ (5 * k + 4) := by
  induction k with
  | zero =>
    intro n
    show packFrom 0 _ n = n ||| v % 16
    obtain ⟨hsymbol, -, hdot⟩ := charmap_spec (show v % 16 < 32 by omega)
    rcases trim_cons (charmap.getD (v % 16) '.') [] with htrim | ⟨hx, -, htrim⟩
    · rw [chars, htrim, packFrom, List.headD_cons, hsymbol, Nat.and_two_pow_sub_one_eq_mod _ 4,
        Nat.mod_mod]
    · rw [chars, htrim, packFrom_nil, hdot hx, Nat.or_zero]
  | succ k ih =>
    intro n
    obtain ⟨hsymbol, hnul, hdot⟩ :=
      charmap_spec (Nat.mod_lt (v / 2 ^ (5 * k + 4)) (show 0 < 32 by omega))
    rw [chars, mod_next]
    rcases trim_cons (charmap.getD (v / 2 ^ (5 * k + 4) % 32) '.') (chars v k) with
      htrim | ⟨hx, hnil, htrim⟩
    · rw [htrim, packFrom, List.headD_cons, if_neg hnul, List.tail_cons, ih, hsymbol,
        Nat.and_two_pow_sub_one_eq_mod _ 5, Nat.mod_mod, Nat.or_assoc]
    · have hlow := ih 0
      rw [hnil, packFrom_nil, Nat.zero_or] at hlow
      rw [htrim, packFrom_nil, hdot hx, ← hlow, Nat.zero_shiftLeft, Nat.or_zero, Nat.or_zero]

/-- **NAMES AND STRINGS**: the constructor accepts what `to_string` writes of any
    64 bits and gives these back, and `to_string` gives back what it accepted. -/
theorem name_text (v : UInt64) : set (toText ⟨v⟩) = .ok ⟨v⟩ ∧
    ∀ str name, set str = .ok name → toText name = str := by
  constructor
  · have hvalue : stringToUint64 (toText ⟨v⟩) = v := by
      rw [stringToUint64, toText_eq, packFrom_chars, Nat.zero_or]
      simp
    have hlen : (toText ⟨v⟩).length ≤ 13 := by
      rw [toText_eq]
      exact (List.rdropWhile_prefix _ _).length_le
    rw [set, hvalue]
    exact eosAssert_bind_ok_iff.mpr ⟨hlen, eosAssert_bind_ok_iff.mpr ⟨rfl, rfl⟩⟩
  · intro str name h
    obtain ⟨-, h⟩ := eosAssert_bind_ok_iff.mp h
    obtain ⟨htext, h⟩ := eosAssert_bind_ok_iff.mp h
    rw [← Except.ok.inj h]
    exact htext

end NameText
