/-!
# Decimal digits

* `ofDigits_digits`: the digits of a number have that number as their value;
* `ofChar?_toChar`: a digit is read from the character that it is written with.
-/

namespace LuaChecker.Decimal

abbrev Digit := Fin 10

namespace Digit

def toChar (d : Digit) : Char :=
  Char.ofNat (48 + d.val)

def ofChar? (c : Char) : Option Digit :=
  if h : 48 ≤ c.toNat ∧ c.toNat < 58 then some ⟨c.toNat - 48, by omega⟩ else none

@[simp] theorem ofChar?_toChar (d : Digit) : ofChar? d.toChar = some d := by
  revert d
  decide

@[simp] theorem isDigit_toChar (d : Digit) : d.toChar.isDigit = true := by
  revert d
  decide

def zero : Digit := 0

end Digit

/-- The digits of a number, the first one first. -/
def digits (n : Nat) : List Digit :=
  if h : n < 10 then [⟨n, h⟩]
  else digits (n / 10) ++ [⟨n % 10, Nat.mod_lt n (by decide)⟩]

def ofDigits (ds : List Digit) : Nat :=
  ds.foldl (fun n d => 10 * n + d.val) 0

theorem ofDigits_concat (ds : List Digit) (d : Digit) :
    ofDigits (ds ++ [d]) = 10 * ofDigits ds + d.val := by
  simp [ofDigits]

theorem ofDigits_digits (n : Nat) : ofDigits (digits n) = n := by
  rw [digits]
  split
  · simp [ofDigits]
  · rw [ofDigits_concat, ofDigits_digits (n / 10)]
    simp only
    omega

def leadingDigits (text : List Char) : List Digit :=
  (text.takeWhile Char.isDigit).filterMap Digit.ofChar?

def afterDigits (text : List Char) : List Char :=
  text.dropWhile Char.isDigit

end LuaChecker.Decimal
