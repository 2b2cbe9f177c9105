import Mathlib

/-!
# Strings of bytes

A string of Go is any sequence of bytes. Read as UTF-8, a byte that does not start a valid encoding
stands for U+FFFD.
-/

namespace Utf8

/-- The bytes of a string. -/
abbrev Bytes := List (BitVec 8)

/-- `utf8.RuneError`. -/
def runeError : ℕ := 0xFFFD

/-- Whether a byte continues an encoding. -/
def isCont (b : ℕ) : Bool :=
  0x80 ≤ b && b ≤ 0xBF

/-- The encodings of two, three and four bytes, of which the first three or four have a restricted
second byte where shorter encodings, surrogates and numbers that are too large would come out. -/
def decodeMulti : List ℕ → Option (ℕ × ℕ)
  | b₀ :: b₁ :: bs =>
    if 0xC2 ≤ b₀ ∧ b₀ ≤ 0xDF ∧ isCont b₁ then some ((b₀ - 0xC0) * 0x40 + (b₁ - 0x80), 2)
    else match bs with
      | b₂ :: bs =>
        if 0xE0 ≤ b₀ ∧ b₀ ≤ 0xEF ∧ isCont b₁ ∧ isCont b₂ ∧ (b₀ = 0xE0 → 0xA0 ≤ b₁) ∧
            (b₀ = 0xED → b₁ ≤ 0x9F) then
          some ((b₀ - 0xE0) * 0x1000 + (b₁ - 0x80) * 0x40 + (b₂ - 0x80), 3)
        else match bs with
          | b₃ :: _ =>
            if 0xF0 ≤ b₀ ∧ b₀ ≤ 0xF4 ∧ isCont b₁ ∧ isCont b₂ ∧ isCont b₃ ∧
                (b₀ = 0xF0 → 0x90 ≤ b₁) ∧ (b₀ = 0xF4 → b₁ ≤ 0x8F) then
              some ((b₀ - 0xF0) * 0x40000 + (b₁ - 0x80) * 0x1000 +
                  (b₂ - 0x80) * 0x40 + (b₃ - 0x80), 4)
            else none
          | [] => none
      | [] => none
  | _ => none

variable (s : Bytes)

/-- `utf8.DecodeRune`: the first rune and its length. -/
def decodeRune : ℕ × ℕ :=
  match s with
  | [] => (runeError, 0)
  | b :: _ =>
    if b.toNat < 0x80 then (b.toNat, 1)
    else (decodeMulti ((s.take 4).map BitVec.toNat)).getD (runeError, 1)

/-- The runes of a string after some bytes. -/
def runesFrom : ℕ → Bytes → List ℕ
  | _, [] => []
  | k + 1, _ :: bs => runesFrom k bs
  | 0, b :: bs =>
    let (rune, size) := decodeRune (b :: bs)
    rune :: runesFrom (size - 1) bs

def runes : List ℕ :=
  runesFrom 0 s

/-- `utf8.RuneCountInString`. -/
def runeCount : ℕ :=
  (runes s).length

/-- `"aé€"` and two bytes that stand for nothing. -/
example : runes [0x61#8, 0xC3#8, 0xA9#8, 0xE2#8, 0x82#8, 0xAC#8, 0xFF#8, 0xC3#8] =
    [0x61, 0xE9, 0x20AC, 0xFFFD, 0xFFFD] := by decide

end Utf8
