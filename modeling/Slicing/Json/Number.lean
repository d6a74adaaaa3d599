import Slicing.Json.Basic

/-!
# JSON numbers

A number is a text of digits with an optional sign, fraction and exponent
(`Json.scanMagnitude`). Whether it is in the range of numbers is decided in
double precision: the digits that fit into 64 bits are the significand, and the
double nearest to it is multiplied by the double nearest to the power of ten
that is left (`Json.inRange`). The result is in range if it is finite, so a
number close to the largest double may be refused or not depending on how it is
written.
-/

namespace Slicing.Json

/-- The decimal digits. -/
def isDigit (c : Char) : Bool := '0' ≤ c && c ≤ '9'

/-- The number written by some decimal digits. -/
def ofDigits (digits : List Char) : Nat :=
  digits.foldl (fun n c => n * 10 + (c.toNat - '0'.toNat)) 0

/-! ## Range -/

/-- Takes further digits into a significand as long as it fits into 64 bits, and
    gives the digits that are left. -/
def takeDigits (significand : Nat) : List Char → Nat × List Char
  | [] => (significand, [])
  | c :: digits =>
    let next := significand * 10 + (c.toNat - '0'.toNat)
    if next < UInt64.size then takeDigits next digits else (significand, c :: digits)

/-- The double nearest to a whole number: 53 binary digits, where a half goes to
    the even neighbour. -/
def nearestDouble (n : Nat) : Nat :=
  if n < Nat.pow 2 53 then n
  else
    let unit := Nat.pow 2 (n.log2 - 52)
    let quotient := n / unit
    let rest := n % unit
    if 2 * rest < unit || (2 * rest == unit && quotient % 2 == 0) then quotient * unit
    else (quotient + 1) * unit

/-- The least number that rounds to infinity as a double. -/
def numberBound : Nat := Nat.pow 2 1024 - Nat.pow 2 970

/-- The largest power of ten that is a finite double. -/
def maxPower : Nat := 308

/-- `significand · 10 ^ (up - down)` is a finite double. Scaling down never leaves
    the range. -/
def inRange (significand up down : Nat) : Bool :=
  significand == 0 || up < down ||
    (up - down ≤ maxPower &&
      nearestDouble significand * nearestDouble (Nat.pow 10 (up - down)) < numberBound)

/-! ## Literals -/

/-- The fraction of a number: a point and at least one digit, or nothing. -/
def scanFraction : List Char → Option (List Char × List Char)
  | '.' :: text =>
    let digits := text.takeWhile isDigit
    if digits.isEmpty then none else some (digits, text.dropWhile isDigit)
  | text => some ([], text)

/-- The sign of an exponent. -/
def scanSign : List Char → List Char × List Char
  | '+' :: text => (['+'], text)
  | '-' :: text => (['-'], text)
  | text => ([], text)

/-- The exponent of a number: its mark with the sign, and its digits (none if
    the number has no exponent). -/
def scanExponent : List Char → Option ((List Char × List Char) × List Char)
  | c :: text =>
    if c == 'e' || c == 'E' then
      let (sign, text) := scanSign text
      let digits := text.takeWhile isDigit
      if digits.isEmpty then none else some ((c :: sign, digits), text.dropWhile isDigit)
    else some (([], []), c :: text)
  | [] => some (([], []), [])

/-- The value of a number literal, given its parts. -/
def ofNumberParts (negative : Bool) (whole fraction mark power : List Char) : Json :=
  let (leading, beyond) := takeDigits 0 whole
  let (significand, dropped) := takeDigits leading fraction
  let exponent := ofDigits power
  let falling := mark.contains '-'
  if !inRange significand (beyond.length + if falling then 0 else exponent)
      (fraction.length - dropped.length + if falling then exponent else 0) then .unvalued
  else if negative || !fraction.isEmpty || !power.isEmpty then
    .decimal (String.ofList ((if negative then ['-'] else []) ++ whole ++
      (if fraction.isEmpty then [] else '.' :: fraction) ++ mark ++ power))
  else .nat (ofDigits whole)

/-- A number without its sign, and the text after it. A number has no leading
    zeros. -/
def scanMagnitude (negative : Bool) (text : List Char) : Option (Json × List Char) :=
  let whole := text.takeWhile isDigit
  if whole.isEmpty || (whole.head? == some '0' && 1 < whole.length) then none
  else match scanFraction (text.dropWhile isDigit) with
    | none => none
    | some (fraction, text) => match scanExponent text with
      | none => none
      | some ((mark, power), text) =>
        some (ofNumberParts negative whole fraction mark power, text)

theorem length_dropWhile_le (p : Char → Bool) (text : List Char) :
    (text.dropWhile p).length ≤ text.length :=
  (List.dropWhile_suffix p).length_le

/-- Scanning a fraction gives back no more text than it was given. -/
theorem scanFraction_length {text rest digits : List Char}
    (h : scanFraction text = some (digits, rest)) : rest.length ≤ text.length := by
  unfold scanFraction at h
  split at h
  · rename_i text
    dsimp only at h
    split at h
    · simp at h
    · simp only [Option.some.injEq, Prod.mk.injEq] at h
      rw [← h.2, List.length_cons]
      have := length_dropWhile_le isDigit text
      omega
  · simp only [Option.some.injEq, Prod.mk.injEq] at h
    simp [h.2]

theorem scanSign_length (text : List Char) : (scanSign text).2.length ≤ text.length := by
  unfold scanSign
  split <;> simp

/-- Scanning an exponent gives back no more text than it was given. -/
theorem scanExponent_length {text rest : List Char} {parts : List Char × List Char}
    (h : scanExponent text = some (parts, rest)) : rest.length ≤ text.length := by
  unfold scanExponent at h
  split at h
  · rename_i c text
    split at h
    · dsimp only at h
      split at h
      · simp at h
      · simp only [Option.some.injEq, Prod.mk.injEq] at h
        rw [← h.2, List.length_cons]
        have := length_dropWhile_le isDigit (scanSign text).2
        have := scanSign_length text
        omega
    · simp only [Option.some.injEq, Prod.mk.injEq] at h
      simp [← h.2]
  · simp only [Option.some.injEq, Prod.mk.injEq] at h
    simp [← h.2]

/-- Dropping something makes a text shorter. -/
theorem length_dropWhile_lt {p : Char → Bool} {text : List Char}
    (h : (text.takeWhile p).isEmpty = false) : (text.dropWhile p).length < text.length := by
  cases text with
  | nil => simp at h
  | cons c text =>
    by_cases hc : p c
    · have := length_dropWhile_le p text
      simp only [List.dropWhile_cons, hc, if_true, List.length_cons]
      omega
    · simp [hc] at h

/-- Scanning a number takes at least one character. -/
theorem scanMagnitude_length {negative : Bool} {text rest : List Char} {value : Json}
    (h : scanMagnitude negative text = some (value, rest)) : rest.length < text.length := by
  unfold scanMagnitude at h
  dsimp only at h
  split at h
  · simp at h
  · rename_i hw
    simp only [Bool.or_eq_true, not_or, Bool.not_eq_true] at hw
    have hd := length_dropWhile_lt hw.1
    split at h
    · simp at h
    · rename_i hf
      have hf := scanFraction_length hf
      split at h
      · simp at h
      · rename_i he
        have he := scanExponent_length he
        simp only [Option.some.injEq, Prod.mk.injEq] at h
        rw [← h.2]
        omega

end Slicing.Json
