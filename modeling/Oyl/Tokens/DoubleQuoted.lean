import Oyl.Tokens.Dispatch
import Oyl.Tokens.Pieces

/-!
# Double-quoted scalars

What one round of the decoding loop of `scan_double_quoted` does: the escape after a
backslash, an escaped break, the lines after a break, and a run of ordinary bytes.
-/

namespace Oyl

open StateError Folding

/-- The number that `n` hexadecimal digits at the front of a text stand for. -/
def hexDigits (n : Nat) (rest : Bytes) : Option Nat :=
  if rest.length < n || !(rest.take n).all isHex then none
  else some ((rest.take n).foldl (fun cp c => cp * 16 + hexDigit c) 0)

/-- A code point that is no surrogate. -/
def isScalarValue (cp : Nat) : Bool := cp ≤ 0x10FFFF && !(0xD800 ≤ cp && cp ≤ 0xDFFF)

/-- The escape after a backslash as the scanner reads it: its bytes in the value and in
the text. -/
def escapeBytes : Bytes → Option (Bytes × Nat)
  | [] => none
  | esc :: rest =>
      match simpleEscape esc with
      | some bytes => some (bytes, 1)
      | none =>
          if esc == 0x78 then (hexDigits 2 rest).map fun n => ([UInt8.ofNat n], 3)
          else if esc == 0x75 then
            ((hexDigits 4 rest).filter isScalarValue).map fun cp => (encodeUtf8 cp, 5)
          else if esc == 0x55 then
            ((hexDigits 8 rest).filter isScalarValue).map fun cp => (encodeUtf8 cp, 9)
          else none

theorem hexDigits_enough {n cp : Nat} {rest : Bytes} (found : hexDigits n rest = some cp) :
    n ≤ rest.length ∧ (rest.take n).all isHex = true := by
  rw [hexDigits] at found
  split at found
  · cases found
  · rename_i enough
    simpa only [Bool.or_eq_true, decide_eq_true_eq, Bool.not_eq_true', not_or, Nat.not_lt,
      Bool.not_eq_false] using enough

theorem hexDigits_congr {n : Nat} {rest other : Bytes} (enough : n ≤ rest.length)
    (same : other.take n = rest.take n) : hexDigits n other = hexDigits n rest := by
  have enough' : n ≤ other.length := by
    have lengths := congrArg List.length same
    rw [List.length_take, List.length_take] at lengths
    omega
  rw [hexDigits, hexDigits, same, decide_eq_false (Nat.not_lt.mpr enough),
    decide_eq_false (Nat.not_lt.mpr enough')]

/-- An escape with digits depends on nothing past them. -/
theorem ofDigits_eq_some {digits n : Nat} {rest bytes : Bytes}
    {g : Option Nat → Option (Bytes × Nat)} (strict : g none = none)
    (size : ∀ cp found, g (some cp) = some found → found.2 = digits + 1)
    (found : g (hexDigits digits rest) = some (bytes, n)) :
    n = digits + 1 ∧ digits ≤ rest.length ∧ (rest.take digits).all isHex = true ∧
      ∀ other : Bytes, other.take digits = rest.take digits →
        g (hexDigits digits other) = some (bytes, n) := by
  cases isNumber : hexDigits digits rest with
  | none =>
      rw [isNumber, strict] at found
      cases found
  | some cp =>
      obtain ⟨enough, hex⟩ := hexDigits_enough isNumber
      rw [isNumber] at found
      refine ⟨size cp _ found, enough, hex, fun other same => ?_⟩
      rw [hexDigits_congr enough same, isNumber, found]

theorem map_size {α : Type} {f : α → Bytes} {size : Nat} {from' : Option α} {found : Bytes × Nat}
    (isFound : (from'.map fun a => (f a, size)) = some found) : found.2 = size := by
  obtain ⟨a, _, rfl⟩ := Option.map_eq_some_iff.mp isFound
  rfl

/-- An escape is a letter, and digits if the letter asks for some. -/
theorem escapeBytes_eq_some {esc : UInt8} {rest bytes : Bytes} {n : Nat}
    (found : escapeBytes (esc :: rest) = some (bytes, n)) :
    ∃ digits, n = digits + 1 ∧ digits ≤ rest.length ∧ (rest.take digits).all isHex = true ∧
      ∀ other : Bytes, other.take digits = rest.take digits →
        escapeBytes (esc :: other) = some (bytes, n) := by
  simp only [escapeBytes] at found ⊢
  cases simple : simpleEscape esc with
  | some bytes' =>
      rw [simple] at found
      cases found
      exact ⟨0, rfl, Nat.zero_le _, rfl, fun other _ => rfl⟩
  | none =>
      rw [simple] at found
      dsimp only at found ⊢
      by_cases isX : (esc == 0x78) = true
      · rw [if_pos isX] at found
        simp only [if_pos isX]
        exact ⟨2, ofDigits_eq_some (g := fun n => n.map _) rfl (fun _ _ => map_size) found⟩
      rw [if_neg isX] at found
      simp only [if_neg isX]
      by_cases isU : (esc == 0x75) = true
      · rw [if_pos isU] at found
        simp only [if_pos isU]
        exact ⟨4, ofDigits_eq_some (g := fun n => (n.filter isScalarValue).map _) rfl
          (fun _ _ => map_size) found⟩
      rw [if_neg isU] at found
      simp only [if_neg isU]
      by_cases isLongU : (esc == 0x55) = true
      · rw [if_pos isLongU] at found
        simp only [if_pos isLongU]
        exact ⟨8, ofDigits_eq_some (g := fun n => (n.filter isScalarValue).map _) rfl
          (fun _ _ => map_size) found⟩
      · rw [if_neg isLongU] at found
        cases found

/-- A computation returns what is found, or fails if nothing is. -/
def Gives {α : Type} (x : ScanM α) (s : Scanner) : Option (α × Scanner) → Prop
  | some (a, s') => x s = .ok a s'
  | none => ∃ q, x s = .error .scan q

theorem Gives.get {α : Type} {f : Scanner → ScanM α} {s : Scanner} {found : Option (α × Scanner)}
    (rest : Gives (f s) s found) : Gives (MonadState.get >>= f) s found := by
  cases found <;> exact rest

theorem Gives.set {α : Type} {f : PUnit → ScanM α} {s s' : Scanner}
    {found : Option (α × Scanner)} (rest : Gives (f ⟨⟩) s' found) :
    Gives (MonadStateOf.set s' >>= f) s found := by
  cases found <;> exact rest

theorem Gives.fails {α : Type} {msg : String} {s : Scanner} :
    Gives (scanError msg : ScanM α) s none := ⟨_, rfl⟩

theorem Gives.fails_bind {α β : Type} {msg : String} {f : α → ScanM β} {s : Scanner} :
    Gives (scanError msg >>= f) s none := ⟨_, rfl⟩

section

variable {text : Bytes} {s s' : Scanner}

theorem isHex_notBreak {c : UInt8} (hex : isHex c = true) : isBreak c = false := (isHex_plain hex).1

/-- The cursor advances by columns where there is no break. -/
theorem advance_run {n : Nat} (reads : s.Reads text) (within : s.pos + n ≤ text.length)
    (plain : ∀ i < n, isBreak (byteAt text (s.pos + i)) = false) :
    s.advance n = s.advanceCols n := by
  induction n generalizing s with
  | zero => rfl
  | succ n ih =>
      have inside : s.atEnd = false := by
        rw [Bool.eq_false_iff, ne_eq, reads.atEnd_iff]
        omega
      have first : s.advance 1 = s.advanceCols 1 :=
        Moves.advance_plain reads inside (reads.peek_eq ▸ plain 0 (Nat.succ_pos n))
      have next : (s.advanceCols 1).Reads text := reads.advanceCols (by omega)
      rw [Moves.advance_succ, first, ih next (by change s.pos + 1 + n ≤ _; omega)]
      · rw [Scanner.advanceCols, Scanner.advanceCols, Scanner.advanceCols]
        simp only [Nat.add_assoc, Nat.add_comm 1]
      · intro i below
        have later := plain (i + 1) (Nat.succ_lt_succ below)
        rwa [show s.pos + (i + 1) = s.pos + 1 + i by omega] at later

theorem remaining_eq (reads : s.Reads text) : s.remaining = s.rest.length := by
  rw [Scanner.remaining, reads.len, reads.rest_eq, List.length_drop]

/-- Hexadecimal digits at the cursor. -/
theorem advance_hexDigits {n : Nat} (reads : s.Reads text) (enough : ¬s.rest.length < n)
    (digits : (s.rest.take n).all isHex = true) : s.advance n = s.advanceCols n := by
  rw [reads.rest_eq, List.length_drop] at enough
  have inside := reads.inside
  apply advance_run reads (by omega)
  intro i below
  rw [List.all_eq_true, reads.rest_eq] at digits
  apply isHex_notBreak
  apply digits
  rw [byteAt, List.getD_eq_getElem?_getD, List.getElem?_eq_getElem (by omega), Option.getD_some]
  refine List.mem_iff_getElem.mpr ⟨i, by rw [List.length_take, List.length_drop]; omega, ?_⟩
  rw [List.getElem_take, List.getElem_drop]

/-- `\u` and `\U`; in a text that is longer than an `int` can say they may be refused. -/
theorem unicodeEscape_gives (n : Nat) (reads : s.Reads text) :
    (intMax < text.length ∧ ∃ q, unicodeEscape n s = .error .scan q) ∨
      Gives (unicodeEscape n) s (((hexDigits n s.rest).filter isScalarValue).map fun cp =>
        (encodeUtf8 cp, s.advanceCols n)) := by
  have narrowed := asInt_le s.rest.length
  by_cases refused : asInt s.rest.length < n ∧ n ≤ s.rest.length
  · -- enough digits are left, more than the narrowed length says
    left
    constructor
    · by_contra small
      have within : s.rest.length ≤ text.length := by
        rw [reads.rest_eq, List.length_drop]
        omega
      rw [asInt_of_le (by omega)] at refused
      omega
    · change Gives (unicodeEscape n) s none
      refine Gives.get ?_
      rw [remaining_eq reads, if_pos refused.1]
      exact .fails_bind
  right
  refine Gives.get ?_
  rw [remaining_eq reads]
  by_cases short : s.rest.length < n
  · have none : hexDigits n s.rest = none := by
      rw [hexDigits, if_pos (by rw [decide_eq_true short]; rfl)]
    rw [none, if_pos (by omega)]
    exact .fails_bind
  rw [if_neg (by omega)]
  dsimp only
  cases digits : (s.rest.take n).all isHex with
  | false =>
      have none : hexDigits n s.rest = none := by
        rw [hexDigits, digits, if_pos (by simp)]
      rw [none, if_pos (Bool.not_false ▸ rfl)]
      exact .fails_bind
  | true =>
      have some : hexDigits n s.rest =
          some ((s.rest.take n).foldl (fun cp c => cp * 16 + hexDigit c) 0) := by
        rw [hexDigits, digits, if_neg (by simpa using short)]
      rw [some, advance_hexDigits reads short digits, Option.filter_some]
      generalize (s.rest.take n).foldl (fun cp c => cp * 16 + hexDigit c) 0 = cp
      rw [if_neg (by simp)]
      refine Gives.set ?_
      by_cases large : cp > 0x10FFFF
      · have notScalar : isScalarValue cp = false := by
          rw [isScalarValue, decide_eq_false (Nat.not_le.mpr large)]
          rfl
        rw [if_pos large, notScalar, if_neg Bool.false_ne_true]
        exact .fails_bind
      rw [if_neg large]
      have isScalar : isScalarValue cp = !(decide (0xD800 ≤ cp) && decide (cp ≤ 0xDFFF)) := by
        rw [isScalarValue, decide_eq_true (Nat.not_lt.mp large), Bool.true_and]
      rw [isScalar]
      cases decide (0xD800 ≤ cp) && decide (cp ≤ 0xDFFF) with
      | true => exact .fails_bind
      | false => rfl

theorem unicodeEscape_step {digits : Nat} {q : Scanner} {f : Bytes → ScanM Bytes}
    (reads : q.Reads text) (wide : 3 < digits + 1)
    (further : ∀ n, s.advanceCols (n + 2) = q.advanceCols n) :
    (∀ bytes n, (((hexDigits digits q.rest).filter isScalarValue).map fun cp =>
        (encodeUtf8 cp, digits + 1)) = some (bytes, n) →
      (unicodeEscape digits >>= f) q = f bytes (s.advanceCols (n + 1)) ∨
        intMax < text.length ∧ 3 < n ∧ ∃ q', (unicodeEscape digits >>= f) q = .error .scan q') ∧
    ((((hexDigits digits q.rest).filter isScalarValue).map fun cp =>
        (encodeUtf8 cp, digits + 1)) = none →
      ∃ q', (unicodeEscape digits >>= f) q = .error .scan q') := by
  rcases unicodeEscape_gives digits reads with ⟨long, q', failed⟩ | gives
  · have fails : ∃ q', (unicodeEscape digits >>= f) q = .error .scan q' :=
      ⟨q', by rw [run_bind, failed]⟩
    refine ⟨fun bytes n found => .inr ⟨long, ?_, fails⟩, fun _ => fails⟩
    have size : n = digits + 1 := map_size found
    rw [size]
    exact wide
  generalize (hexDigits digits q.rest).filter isScalarValue = found at gives ⊢
  cases found with
  | none =>
      obtain ⟨q', failed⟩ := gives
      constructor
      · intro bytes n found
        cases found
      · intro _
        exact ⟨q', by rw [run_bind, failed]⟩
  | some cp =>
      constructor
      · intro bytes n found
        cases found
        rw [further]
        exact .inl (run_bind_ok gives)
      · intro absent
        cases absent

theorem rest_two {q : Scanner} (reads : q.Reads text) (enough : ¬q.rest.length < 2) :
    q.rest = q.peek :: q.peekAt 1 :: text.drop (q.pos + 2) := by
  rw [reads.rest_eq, List.length_drop] at enough
  rw [reads.rest_eq, drop_eq_cons (by omega), drop_eq_cons (by omega), reads.peek_eq,
    reads.peekAt_eq]

theorem hexDigits_two {q : Scanner} (reads : q.Reads text) :
    hexDigits 2 q.rest = if q.rest.length < 2 then none
      else if !isHex q.peek || !isHex (q.peekAt 1) then none
      else some (hexDigit q.peek * 16 + hexDigit (q.peekAt 1)) := by
  rw [hexDigits]
  by_cases short : q.rest.length < 2
  · rw [if_pos short, if_pos (by simp [short])]
  rw [if_neg short, rest_two reads short]
  simp only [List.length_cons, List.take_succ_cons, List.take_zero, List.all_cons, List.all_nil,
    Bool.and_true, Bool.not_and, List.foldl_cons, List.foldl_nil, Nat.zero_mul, Nat.zero_add]
  rw [decide_eq_false (by omega), Bool.false_or]

/-- An escape at the cursor; one with more than two digits may be refused in a text that
is longer than an `int` can say. -/
theorem doubleQuotedLoop_escape (fuel : Nat) (out : Bytes) (contentEnd : Nat)
    (reads : s.Reads text) (inside : s.pos + 1 < text.length)
    (isEscape : byteAt text s.pos = backslash)
    (notBreak : isBreak (byteAt text (s.pos + 1)) = false) :
    (∀ bytes n, escapeBytes (text.drop (s.pos + 1)) = some (bytes, n) →
      doubleQuotedLoop (fuel + 1) out contentEnd s =
          doubleQuotedLoop fuel (out ++ bytes) (out ++ bytes).length (s.advanceCols (n + 1)) ∨
        intMax < text.length ∧ 3 < n ∧
          ∃ q, doubleQuotedLoop (fuel + 1) out contentEnd s = .error .scan q) ∧
    (escapeBytes (text.drop (s.pos + 1)) = none →
      ∃ q, doubleQuotedLoop (fuel + 1) out contentEnd s = .error .scan q) := by
  have one : s.advance 1 = s.advanceCols 1 := by
    apply advance_run reads (by omega)
    intro i below
    obtain rfl := Nat.lt_one_iff.mp below
    rw [Nat.add_zero, isEscape]
    rfl
  have reads1 : (s.advanceCols 1).Reads text := reads.advanceCols (by omega)
  have letter : (s.advanceCols 1).peek = byteAt text (s.pos + 1) := reads1.peek_eq
  have two : (s.advanceCols 1).advance 1 = s.advanceCols 2 := by
    rw [advance_run reads1 (by change s.pos + 1 + 1 ≤ _; omega), advanceCols_add]
    intro i below
    obtain rfl := Nat.lt_one_iff.mp below
    exact notBreak
  have reads2 : (s.advanceCols 2).Reads text := reads.advanceCols (by omega)
  have isRest : text.drop (s.pos + 1) = byteAt text (s.pos + 1) :: (s.advanceCols 2).rest := by
    rw [drop_eq_cons inside, reads2.rest_eq]
    rfl
  have open' : s.atEnd = false := by
    rw [Bool.eq_false_iff, ne_eq, reads.atEnd_iff]
    omega
  have open1 : (s.advanceCols 1).atEnd = false := by
    rw [Bool.eq_false_iff, ne_eq, reads1.atEnd_iff]
    change ¬text.length ≤ s.pos + 1
    omega
  have further (n : Nat) : s.advanceCols (n + 2) = (s.advanceCols 2).advanceCols n := by
    rw [advanceCols_add, Nat.add_comm]
  rw [isRest, doubleQuotedLoop, get_bind_eq, open', reads.peek_eq, isEscape, one]
  generalize byteAt text (s.pos + 1) = esc at *
  rw [if_neg (by decide), if_pos (beq_self_eq_true backslash)]
  dsimp only
  rw [run_bind, run_set]
  dsimp only
  rw [open1, if_neg Bool.false_ne_true, letter, two, run_bind, run_set]
  dsimp only
  rw [isBreak] at notBreak
  rw [notBreak, if_neg Bool.false_ne_true]
  generalize s.advanceCols 2 = q at *
  cases simple : simpleEscape esc with
  | some bytes =>
      have found : escapeBytes (esc :: q.rest) = some (bytes, 1) := by
        rw [escapeBytes, simple]
      rw [found]
      constructor
      · intro bytes' n same
        cases same
        rw [further]
        exact .inl rfl
      · intro absent
        cases absent
  | none =>
      rw [escapeBytes, simple]
      dsimp only
      by_cases isX : (esc == 0x78) = true
      · rw [if_pos isX, if_pos isX, remaining_eq reads2]
        rw [hexDigits_two reads2]
        by_cases short : q.rest.length < 2
        · rw [if_pos short, if_pos short]
          constructor
          · intro bytes n found
            cases found
          · intro _
            exact ⟨_, rfl⟩
        rw [if_neg short, if_neg short]
        cases digits : !isHex q.peek || !isHex (q.peekAt 1) with
        | true =>
            constructor
            · intro bytes n found
              cases found
            · intro _
              exact ⟨_, rfl⟩
        | false =>
            constructor
            · intro bytes n found
              cases found
              have hex : (q.rest.take 2).all isHex = true := by
                rw [rest_two reads2 short]
                simpa [Bool.or_eq_false_iff] using digits
              rw [if_neg Bool.false_ne_true, advance_hexDigits reads2 short hex, further]
              exact .inl rfl
            · intro absent
              cases absent
      rw [if_neg isX, if_neg isX]
      by_cases isU : (esc == 0x75) = true
      · rw [if_pos isU, if_pos isU]
        exact unicodeEscape_step reads2 (by decide) further
      rw [if_neg isU, if_neg isU]
      by_cases isLongU : (esc == 0x55) = true
      · rw [if_pos isLongU, if_pos isLongU]
        exact unicodeEscape_step reads2 (by decide) further
      · rw [if_neg isLongU, if_neg isLongU]
        constructor
        · intro bytes n found
          cases found
        · intro _
          exact ⟨_, rfl⟩

/-- The loop stops at the closing quote. -/
theorem doubleQuotedLoop_close {fuel : Nat} {out : Bytes} {contentEnd : Nat}
    (isQuote : s.peek = dquote) :
    doubleQuotedLoop (fuel + 1) out contentEnd s = .ok out s := by
  rw [doubleQuotedLoop, get_bind_eq, isQuote, if_pos (by rw [beq_self_eq_true, Bool.or_true])]
  rfl

/-- An ordinary byte of a double-quoted scalar. -/
def isQuotedPlain (c : UInt8) : Bool := !(c == dquote || c == backslash || c == lf || c == cr)

/-- A run of ordinary bytes. -/
theorem doubleQuotedLoop_run (fuel : Nat) (out : Bytes) (contentEnd : Nat)
    (inside : s.atEnd = false) (plain : isQuotedPlain s.peek = true) :
    doubleQuotedLoop (fuel + 1) out contentEnd s =
      doubleQuotedLoop fuel (out ++ s.rest.take (runLength isQuotedPlain s.rest))
        (if (trimBlanks (s.rest.take (runLength isQuotedPlain s.rest))).length > 0
          then out.length + (trimBlanks (s.rest.take (runLength isQuotedPlain s.rest))).length
          else contentEnd)
        (s.advanceCols (runLength isQuotedPlain s.rest)) := by
  simp only [isQuotedPlain, Bool.not_eq_true', Bool.or_eq_false_iff] at plain
  rw [doubleQuotedLoop, get_bind_eq, inside, plain.1.1.1, plain.1.1.2, isBreak, plain.1.2, plain.2]
  rfl

/-- `scan_double_quoted` without its zero-copy path. -/
def scanDoubleQuotedBuffered : ScanM Token := do
  let start := (← get).mark
  modify fun s => s.advance 1
  let s ← get
  let out ← doubleQuotedLoop (s.remaining + 1) [] 0
  if (← get).peek != dquote then scanError "unterminated double-quoted scalar"
  modify fun s => s.advance 1
  finishQuoted .doubleQuoted start out

theorem peek_of_byte {c : UInt8} (inside : s.pos < s.len) (isByte : s.byte s.pos = c) :
    s.peek = c := by
  rw [← isByte, Scanner.peek, Scanner.peekAt, Nat.add_zero, if_pos inside]

/-- The zero-copy path gives what the buffered loop gives. -/
theorem scanDoubleQuoted_eq (reads : s.Reads text) (isQuote : s.peek = dquote) :
    scanDoubleQuoted s = scanDoubleQuotedBuffered s := by
  have first : Moves text (unmarked text) noEscape s (s.advance 1) :=
    .advance reads (by rw [isQuote]; rfl)
  have reads' := first.reads
  rw [scanDoubleQuoted, scanDoubleQuotedBuffered, get_bind_eq, get_bind_eq]
  generalize s.mark = start
  rw [run_bind, run_bind, run_modify]
  dsimp only
  rw [get_bind_eq, get_bind_eq]
  generalize s.advance 1 = q at reads'
  split
  · rename_i closed
    simp only [Bool.and_eq_true, decide_eq_true_eq, beq_iff_eq] at closed
    obtain ⟨inside, isClose⟩ := closed
    have closes : (q.advanceCols (runLength isQuotedPlain q.rest)).peek = dquote :=
      peek_of_byte (s := q.advanceCols (runLength isQuotedPlain q.rest)) inside isClose
    have looped : doubleQuotedLoop (q.remaining + 1) [] 0 q =
        .ok (q.rest.take (runLength isQuotedPlain q.rest))
          (q.advanceCols (runLength isQuotedPlain q.rest)) := by
      cases isRun : runLength isQuotedPlain q.rest with
      | zero =>
          rw [isRun] at closes
          exact doubleQuotedLoop_close closes
      | succ n =>
          have within : q.pos + runLength isQuotedPlain q.rest < q.len := inside
          have open' : q.atEnd = false := by
            rw [Scanner.atEnd, decide_eq_false_iff_not]
            omega
          have plain := runLength_all isQuotedPlain q.rest (isRun ▸ Nat.succ_pos n : 0 < _)
          rw [reads'.rest_eq, getD_drop, Nat.add_zero, ← reads'.peek_eq] at plain
          have more : q.remaining = (q.remaining - 1) + 1 := by
            rw [Scanner.remaining]
            omega
          rw [doubleQuotedLoop_run _ _ _ open' plain, more, doubleQuotedLoop_close closes, isRun,
            List.nil_append]
    have passed : (q.advanceCols (runLength isQuotedPlain q.rest)).advance 1 =
        q.advanceCols (runLength isQuotedPlain q.rest + 1) := by
      rw [Moves.advance_plain (reads'.advanceCols (reads'.run_within _)) _ (closes ▸ rfl),
        advanceCols_add]
      rw [Scanner.atEnd, decide_eq_false_iff_not]
      exact Nat.not_le.mpr inside
    rw [run_bind_ok looped, get_bind_eq, closes, if_neg (by simp), run_bind, run_bind, run_set,
      run_modify, passed]
    rfl
  · rfl

end

end Oyl
