import JailFs.CInt
import JailFs.ConfLoad

/-!
# Time settings

`timestr_to_time` reads a setting of the form `[Xd][Xh][Xm][X][s]`: it cuts the string at the first
`d`, `h` and `m` in turn and hands each piece to `strtol`, which takes the number that the piece
starts with and ignores the rest of it.
-/

namespace JailFs

/-- `isspace` in the C locale. -/
def isspace (c : UInt8) : Bool := c = 32 || (9 ≤ c && c ≤ 13)

/-- The value of a digit, a letter being one beyond `9`. -/
def digitValue (c : UInt8) : Option ℕ :=
  if 48 ≤ c ∧ c ≤ 57 then some (c.toNat - 48)
  else if 65 ≤ c ∧ c ≤ 90 then some (c.toNat - 55)
  else if 97 ≤ c ∧ c ≤ 122 then some (c.toNat - 87)
  else none

def isDigit (base : ℕ) (c : UInt8) : Bool := (digitValue c).any (· < base)

/-- The number in front of the first byte that is not a digit. -/
def digits (base : ℕ) (s : List UInt8) : ℕ :=
  (s.takeWhile (isDigit base)).foldl (fun n c => n * base + (digitValue c).getD 0) 0

/-- The digits of a number whose base they tell: hexadecimal after `0x`, octal after `0`. -/
def magnitude : List UInt8 → ℕ
  | [] => 0
  | 48 :: [] => 0
  | 48 :: x :: s =>
    if (x = 120 ∨ x = 88) ∧ s.head?.any (isDigit 16) then digits 16 s else digits 8 (x :: s)
  | c :: s => digits 10 (c :: s)

/-- `strtol(s, NULL, 0)`, which answers the closest `long` where the number is none. -/
def strtol (s : List UInt8) : ℤ :=
  match s.dropWhile isspace with
  | 45 :: s => max (-2 ^ 63) (-magnitude s)
  | 43 :: s => min (2 ^ 63 - 1) (magnitude s)
  | s => min (2 ^ 63 - 1) (magnitude s)

/-- One `strchr` of `timestr_to_time`: what has been added up, and where the string goes on. -/
def timeField (letter : UInt8) (unit : ℤ) (acc : ℤ × List UInt8) : ℤ × List UInt8 :=
  let (ret, s) := acc
  if letter ∈ s then
    (wrapTime (ret + wrapTime (strtol (s.takeWhile (· ≠ letter)) * unit)),
      (s.dropWhile (· ≠ letter)).drop 1)
  else (ret, s)

def timestrToTime (str : Option CString) (dflt : ℤ) : ℤ :=
  match str with
  | none => dflt
  | some str =>
    let days := timeField 100 86400 (0, str.bytes.map tolower)
    let hours := timeField 104 3600 days
    let (ret, s) := timeField 109 60 hours
    wrapTime (ret + strtol s)

theorem wrapTime_of_bounds {n : ℤ} (h : -2 ^ 63 ≤ n ∧ n ≤ 2 ^ 63 - 1) : wrapTime n = n :=
  Int.bmod_eq_of_le (by omega) (by omega)

end JailFs
