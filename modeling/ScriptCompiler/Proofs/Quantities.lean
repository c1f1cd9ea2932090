import Mathlib.Algebra.Group.Int.Defs
import Mathlib.Algebra.Group.Nat.Defs
import ScriptCompiler.SourceMap.Vlq

/-!
# Reading variable-length quantities

A digit without the mark 32 is the last one of its number, so numbers that are written one behind
the other can be told apart, and each of them is read back. The word that the digits are taken from
has 64 bits. A number and its sign fill all of them if its absolute value has 63, and none is lost;
only the least number, whose absolute value has one bit more, does not fit.
-/

namespace ScriptCompiler.Vlq

/-- The digit that a character stands for in the alphabet of Base64. -/
def digit? (c : Char) : Option Nat :=
  "ABCDEFGHIJKLMNOPQRSTUVWXYZabcdefghijklmnopqrstuvwxyz0123456789+/".toList.idxOf? c

/-- The number of a word, whose lowest bit is its sign. -/
def signed (n : Nat) : Int :=
  if n % 2 = 0 then (n / 2 : Nat) else -(n / 2 : Nat)

/-- The numbers that the characters spell. The digits of the first number that were read before make
    `low`, and the next one counts `weight` times. -/
def readFrom (low weight : Nat) : List Char → Option (List Int)
  | [] => if weight = 1 then some [] else none
  | c :: rest => (digit? c).bind fun d =>
    if d < 32 then (readFrom 0 1 rest).map (signed (low + d * weight) :: ·)
    else readFrom (low + (d - 32) * weight) (weight * 32) rest

/-- The numbers that the characters spell. -/
def read (text : List Char) : Option (List Int) :=
  readFrom 0 1 text

/-- Of the digits the last one, and no other, is without the mark 32. -/
def Delimited (digits : List Nat) : Prop :=
  ∃ marked last, digits = marked ++ [last] ∧ (∀ d ∈ marked, 32 ≤ d ∧ d < 64) ∧ last < 32

/-! ### Digits -/

theorem delimited_singleton {n : Nat} (h : n < 32) : Delimited [n] :=
  ⟨[], n, rfl, fun _ hd => absurd hd List.not_mem_nil, h⟩

theorem Delimited.lt {digits : List Nat} (h : Delimited digits) {d : Nat} (hd : d ∈ digits) :
    d < 64 := by
  obtain ⟨marked, last, rfl, hmarked, hlast⟩ := h
  rcases List.mem_append.mp hd with hd | hd
  · exact (hmarked d hd).2
  · rw [List.mem_singleton.mp hd]
    omega

theorem digit?_digitChar : ∀ d < 64, digit? (digitChar d) = some d := by
  decide

theorem div_lt_pow {bound n : Nat} (h : n < 32 ^ (bound + 1 + 1)) : n / 32 < 32 ^ (bound + 1) := by
  rw [Nat.div_lt_iff_lt_mul (by decide), ← Nat.pow_succ]
  exact h

theorem readFrom_digitsWithin {bound n : Nat} (hbound : n < 32 ^ (bound + 1)) (low weight : Nat)
    (rest : List Char) :
    readFrom low weight ((digitsWithin (bound + 1) n).map digitChar ++ rest) =
      (read rest).map (signed (low + n * weight) :: ·) := by
  induction bound generalizing n low weight with
  | zero =>
    have hn : n < 32 := by omega
    simp [digitsWithin, hn, readFrom, digit?_digitChar n (by omega), read]
  | succ bound ih =>
    rw [digitsWithin]
    split
    · rename_i hn
      simp [readFrom, hn, digit?_digitChar n (by omega), read]
    · have hdigit : n % 32 + 32 < 64 := by omega
      rw [List.map_cons, List.cons_append, readFrom, digit?_digitChar _ hdigit, Option.bind_some,
        if_neg (by omega), ih (div_lt_pow hbound)]
      -- The digit that was read and the digits that follow make the number again.
      have hvalue : low + (n % 32 + 32 - 32) * weight + n / 32 * (weight * 32) =
          low + n * weight := by
        rw [Nat.add_sub_cancel, Nat.add_assoc, Nat.mul_comm weight 32, ← Nat.mul_assoc,
          ← Nat.add_mul, Nat.mod_add_div']
      rw [hvalue]

theorem delimited_digitsWithin {bound n : Nat} (hbound : n < 32 ^ (bound + 1)) :
    Delimited (digitsWithin (bound + 1) n) := by
  induction bound generalizing n with
  | zero =>
    have hn : n < 32 := by omega
    rw [digitsWithin, if_pos hn]
    exact delimited_singleton hn
  | succ bound ih =>
    rw [digitsWithin]
    split
    · rename_i hn
      exact delimited_singleton hn
    · obtain ⟨marked, last, hdigits, hmarked, hlast⟩ := ih (div_lt_pow hbound)
      refine ⟨(n % 32 + 32) :: marked, last, by rw [hdigits, List.cons_append], ?_, hlast⟩
      exact List.forall_mem_cons.mpr ⟨by omega, hmarked⟩

theorem toNat_lt_pow (w : UInt64) : w.toNat < 32 ^ 13 :=
  Nat.lt_of_lt_of_le w.toNat_lt (by decide)

theorem delimited_digits (w : UInt64) : Delimited (digits w) :=
  delimited_digitsWithin (toNat_lt_pow w)

/-! ### Words -/

theorem two_mul_or_one (n : Nat) : 2 * n ||| 1 = 2 * n + 1 := by
  have hone : 1 < 2 ^ 1 := by decide
  simpa using (Nat.two_pow_add_eq_or_of_lt hone n).symm

/-- The sign bit of a number that is not negative is clear, so nothing is lost when its bits move
    one place up. -/
theorem toNat_shiftLeft_one {v : Int64} (hnonneg : 0 ≤ v.toInt) :
    ((v <<< 1).toBitVec.toNat : Int) = 2 * v.toInt := by
  have hvalue : (v.toBitVec.toNat : Int) = v.toInt ∧ v.toInt < 2 ^ 63 := by
    have hcond := BitVec.toInt_eq_toNat_cond v.toBitVec
    have hlt := v.toBitVec.isLt
    change v.toInt = _ at hcond
    split at hcond <;> omega
  have hshift : (v <<< 1).toBitVec = v.toBitVec <<< 1 := rfl
  rw [hshift, BitVec.toNat_shiftLeft, Nat.shiftLeft_eq]
  omega

/-- The word of a number is twice its absolute value, and one more if the number is negative. -/
theorem toNat_word {v : Int64} (h : v.toInt ≠ -2 ^ 63) :
    (word v).toNat = 2 * v.toInt.natAbs + if v.toInt < 0 then 1 else 0 := by
  have hsign : v < 0 ↔ v.toInt < 0 := Int64.lt_iff_toInt_lt
  have hleast : -2 ^ 63 ≤ v.toInt := Int64.le_toInt v
  unfold word
  by_cases hneg : v.toInt < 0
  · rw [if_pos (hsign.mpr hneg), if_pos hneg]
    -- Only the least number has no opposite.
    have hminus : (-v).toInt = -v.toInt := by
      rw [Int64.toInt_neg]
      exact Int.bmod_eq_of_le (by omega) (by omega)
    have hdouble := toNat_shiftLeft_one (v := -v) (by omega)
    have habs : ((-v) <<< 1).toBitVec.toNat = 2 * v.toInt.natAbs := by omega
    show (((-v) <<< 1).toBitVec ||| 1#64).toNat = _
    rw [BitVec.toNat_or, habs]
    exact two_mul_or_one _
  · rw [if_neg (mt hsign.mp hneg), if_neg hneg]
    have hdouble := toNat_shiftLeft_one (Int.not_lt.mp hneg)
    show (v <<< 1).toBitVec.toNat = _
    omega

theorem signed_word {v : Int64} (h : v.toInt ≠ -2 ^ 63) : signed (word v).toNat = v.toInt := by
  rw [toNat_word h, signed]
  split <;> split at * <;> omega

/-! ### Numbers -/

theorem read_encode {v : Int64} (h : v.toInt ≠ -2 ^ 63) (rest : List Char) :
    read (encode v ++ rest) = (read rest).map (v.toInt :: ·) := by
  rw [read, encode, digits, readFrom_digitsWithin (toNat_lt_pow (word v)), Nat.mul_one,
    Nat.zero_add, signed_word h]

/-- The numbers of a list are read back before those of the text behind them. -/
theorem read_flatMap_encode_append {values : List Int64} (h : ∀ v ∈ values, v.toInt ≠ -2 ^ 63)
    (rest : List Char) :
    read (values.flatMap encode ++ rest) = (read rest).map (values.map Int64.toInt ++ ·) := by
  induction values with
  | nil => exact Option.map_id'.symm
  | cons v values ih =>
    obtain ⟨hv, hvalues⟩ := List.forall_mem_cons.mp h
    rw [List.flatMap_cons, List.append_assoc, read_encode hv, ih hvalues, Option.map_map]
    rfl

/-- The numbers of a list are read back from their digits alone, which show where each number ends,
    and no bit of a number or its sign is lost in its word. -/
theorem read_flatMap_encode (values : List Int64) (h : ∀ v ∈ values, v.toInt ≠ -2 ^ 63) :
    read (values.flatMap encode) = some (values.map Int64.toInt) ∧
      ∀ v ∈ values, Delimited (digits (word v)) ∧
        (word v).toNat = 2 * v.toInt.natAbs + if v.toInt < 0 then 1 else 0 := by
  refine ⟨?_, fun v hv => ⟨delimited_digits (word v), toNat_word (h v hv)⟩⟩
  have hread := read_flatMap_encode_append h []
  rw [List.append_nil] at hread
  rw [hread]
  simp [read, readFrom]

/-- Numbers at both ends of the range, around a fourth of it, and where a second digit starts. -/
def limits : List Int64 :=
  [9223372036854775807, -9223372036854775807, 4611686018427387904, -4611686018427387905, 15, 16,
    -16, 0]

theorem read_limits :
    (∀ v ∈ limits, v.toInt ≠ -2 ^ 63) ∧
      limits.map (String.ofList ∘ encode) =
        ["+///////////P", "////////////P", "ggggggggggggI", "jgggggggggggI", "e", "gB", "hB", "A"] ∧
      read (limits.flatMap encode) =
        some [9223372036854775807, -9223372036854775807, 4611686018427387904,
          -4611686018427387905, 15, 16, -16, 0] := by
  have hleast : ∀ v ∈ limits, v.toInt ≠ -2 ^ 63 := by
    have hall : limits.all (·.toInt ≠ -2 ^ 63) = true := by decide +kernel
    simpa using hall
  exact ⟨hleast, by decide +kernel, (read_flatMap_encode limits hleast).1⟩

/-! ### The characters of numbers -/

theorem digitChar_ne_separator : ∀ d < 64, digitChar d ≠ ';' ∧ digitChar d ≠ ',' := by
  decide +kernel

theorem ne_separator_of_mem_encode {v : Int64} {c : Char} (h : c ∈ encode v) :
    c ≠ ';' ∧ c ≠ ',' := by
  obtain ⟨d, hd, rfl⟩ := List.mem_map.mp h
  exact digitChar_ne_separator d ((delimited_digits (word v)).lt hd)

theorem encode_ne_nil (v : Int64) : encode v ≠ [] := by
  rw [encode, digits, digitsWithin]
  split <;> exact List.cons_ne_nil _ _

end ScriptCompiler.Vlq
