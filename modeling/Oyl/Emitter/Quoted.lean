import Mathlib.Tactic.IntervalCases
import Oyl.Emitter.Scalars
import Oyl.Tokens.EscapeTable
import Oyl.Tokens.SingleQuoted

/-!
# Quoted scalars read back

What the emitter writes between quotes is scanned as one token with the value it was
written for.
-/

namespace Oyl

open StateError

theorem upperHexDigit_spec {n : UInt8} (small : n < 16) :
    isHex (upperHexDigit n) = true ∧ hexDigit (upperHexDigit n) = n.toNat := by
  have below : n.toNat < 16 := UInt8.lt_iff_toNat_lt.mp small
  obtain ⟨k, isNat⟩ : ∃ k, n.toNat = k := ⟨_, rfl⟩
  rw [isNat] at below
  have isByte : n = UInt8.ofNat k := by rw [← isNat, UInt8.ofNat_toNat]
  subst isByte
  interval_cases k <;> decide

theorem upperHexDigits_value (c : UInt8) :
    hexDigit (upperHexDigit (c / 16)) * 16 + hexDigit (upperHexDigit (c % 16)) = c.toNat := by
  have high : c / 16 < 16 := by
    rw [UInt8.lt_iff_toNat_lt, UInt8.toNat_div]
    have := c.toNat_lt
    change c.toNat / 16 < 16
    omega
  have low : c % 16 < 16 := by
    rw [UInt8.lt_iff_toNat_lt, UInt8.toNat_mod]
    exact Nat.mod_lt _ (by decide)
  rw [(upperHexDigit_spec high).2, (upperHexDigit_spec low).2, UInt8.toNat_div, UInt8.toNat_mod]
  exact Nat.div_add_mod' c.toNat 16

theorem upperHexDigits_hex (c : UInt8) :
    isHex (upperHexDigit (c / 16)) = true ∧ isHex (upperHexDigit (c % 16)) = true := by
  constructor
  · refine (upperHexDigit_spec ?_).1
    rw [UInt8.lt_iff_toNat_lt, UInt8.toNat_div]
    have := c.toNat_lt
    change c.toNat / 16 < 16
    omega
  · refine (upperHexDigit_spec ?_).1
    rw [UInt8.lt_iff_toNat_lt, UInt8.toNat_mod]
    exact Nat.mod_lt _ (by decide)

/-! ### Double quotes -/

/-- What the emitter writes after a backslash: no break, and no `u` or `U`. -/
def isWrittenLetter (esc : UInt8) : Prop := isBreak esc = false ∧ isWideEscape esc = false

/-- An escape that the emitter writes is read as the byte it was written for. -/
structure WrittenEscape (c : UInt8) (written : Bytes) : Prop where
  line : ∀ {rest}, EscapedLine isWrittenLetter rest → EscapedLine isWrittenLetter (written ++ rest)
  value : ∀ rest, unescape escapeBytes 0 (written ++ rest) =
    (unescape escapeBytes 0 rest).map (c :: ·)

theorem WrittenEscape.plain {c : UInt8} (isPlain : isQuotedPlain c = true) :
    WrittenEscape c [c] := by
  constructor
  · exact EscapedLine.byte isPlain
  · intro rest
    have notEscape : (c == backslash) = false := by
      apply beq_false_of_ne
      rintro rfl
      cases isPlain
    rw [List.singleton_append, unescape, notEscape, if_neg Bool.false_ne_true]

theorem WrittenEscape.simple {c d esc : UInt8} (same : (c == d) = true)
    (isLetter : isWrittenLetter esc) (isSimple : simpleEscape esc = some [d]) :
    WrittenEscape c [backslash, esc] := by
  rw [← beq_iff_eq.mp same] at isSimple
  constructor
  · exact EscapedLine.escape isLetter
  · intro rest
    have found : escapeBytes (esc :: rest) = some ([c], 1) := by rw [escapeBytes, isSimple]
    change unescape escapeBytes 0 (backslash :: esc :: rest) = _
    rw [unescape, if_pos (beq_self_eq_true _), found]
    rfl

theorem WrittenEscape.hex (c : UInt8) : WrittenEscape c
    [backslash, 0x78, upperHexDigit (c / 16), upperHexDigit (c % 16)] := by
  obtain ⟨high, low⟩ := upperHexDigits_hex c
  have value := upperHexDigits_value c
  generalize upperHexDigit (c / 16) = h at high value ⊢
  generalize upperHexDigit (c % 16) = l at low value ⊢
  constructor
  · intro rest line
    exact .escape ⟨rfl, rfl⟩ (.byte (isHex_quotedPlain high) (.byte (isHex_quotedPlain low) line))
  · intro rest
    have number : hexDigits 2 (h :: l :: rest) = some c.toNat := by
      simp [hexDigits, high, low, value]
    have found : escapeBytes (0x78 :: h :: l :: rest) = some ([c], 3) := by
      have noSimple : simpleEscape 0x78 = none := by decide
      rw [escapeBytes, noSimple]
      dsimp only
      rw [if_pos (by decide), number, Option.map_some, UInt8.ofNat_toNat]
    change unescape escapeBytes 0 (backslash :: 0x78 :: h :: l :: rest) = _
    rw [unescape, if_pos (beq_self_eq_true _), found]
    rfl

section

variable {text tail value : Bytes} {s : Scanner}

end

end Oyl
