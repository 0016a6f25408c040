import Oyl.Tokens.Names

/-!
# The paths of tokens

`oyl_scan_token` passes blanks, breaks and comments to the start of a token,
and then the token itself.
-/

namespace Oyl

open StateError

/-- The escaped breaks of the token at an offset, if it is a double-quoted scalar. -/
def tokenEscapes (text : Bytes) (offset : Nat) : List Nat :=
  if byteAt text offset == dquote then escapedBreaks (offset + 1) (text.drop (offset + 1)) else []

/-- A token at the cursor: where it ends and which lines it enters. -/
structure TokenAt (text : Bytes) (s : Scanner) (tok : Token) (s' : Scanner) : Prop where
  spans : SpansLines text (· ∈ tokenEscapes text s.pos) s.mark s tok s'
  opens : s.begins ≤ s.pos → s.mark.Opens text s.begins → s'.mark.Opens text s.begins

section

variable {text : Bytes} {escapes : Nat → Prop} {s s' : Scanner}

theorem unrollIndents_eq (s : Scanner) (col : Int) :
    ∃ indent indents, s.unrollIndents col = { s with indent := indent, indents := indents } := by
  have loop (indents : List Int) (indent : Int) :
      ∃ indent' indents', Scanner.unrollIndents.go s col indent indents =
        { s with indent := indent', indents := indents' } := by
    induction indents generalizing indent with
    | nil => exact ⟨indent, [], rfl⟩
    | cons below rest ih =>
        rw [Scanner.unrollIndents.go]
        split
        · exact ih below
        · exact ⟨indent, below :: rest, rfl⟩
  exact loop s.indents s.indent

theorem atDocIndicator_iff (reads : s.Reads text) {c : UInt8} (notNul : c ≠ 0) :
    s.atDocIndicator c = true ↔
      s.col = 1 ∧ byteAt text s.pos = c ∧ byteAt text (s.pos + 1) = c ∧
        byteAt text (s.pos + 2) = c ∧
        (text.length = s.pos + 3 ∨ isBlankOrBreak (byteAt text (s.pos + 3)) = true) := by
  simp only [Scanner.atDocIndicator, Scanner.remaining, reads.len, reads.byte_eq, reads.peekAt_eq,
    Bool.and_eq_true, Bool.or_eq_true, beq_iff_eq, decide_eq_true_eq]
  constructor
  · rintro ⟨⟨⟨⟨⟨atStart, long⟩, first⟩, second⟩, third⟩, ends⟩
    refine ⟨atStart, first, second, third, ?_⟩
    rcases ends with last | gap
    · exact .inl (by omega)
    · exact .inr gap
  · rintro ⟨atStart, first, second, third, ends⟩
    have inside : s.pos + 2 < text.length := by
      by_contra outside
      exact notNul (third.symm.trans (byteAt_outside (by omega)))
    refine ⟨⟨⟨⟨⟨atStart, by omega⟩, first⟩, second⟩, third⟩, ?_⟩
    rcases ends with last | gap
    · exact .inl (by omega)
    · exact .inr gap

/-- A marker at column 1 is recognised. -/
theorem atDocIndicator_of_marker (reads : s.Reads text) (atStart : s.col = 1)
    (marked : markerAt text s.pos = true) :
    s.atDocIndicator dash = true ∨ s.atDocIndicator dot = true := by
  rw [atDocIndicator_iff reads (by decide), atDocIndicator_iff reads (by decide)]
  simp only [markerAt, Bool.and_eq_true, Bool.or_eq_true, beq_iff_eq] at marked
  obtain ⟨⟨⟨kind, second⟩, third⟩, ends⟩ := marked
  rcases kind with isDash | isDot
  · exact .inl ⟨atStart, isDash, isDash ▸ second, isDash ▸ third, ends⟩
  · exact .inr ⟨atStart, isDot, isDot ▸ second, isDot ▸ third, ends⟩

/-! ### Indicators -/

/-- A token whose breaks are all counted. -/
theorem SpansLines.tokenAt {tok : Token} (spans : SpansLines text noEscape s.mark s tok s') :
    TokenAt text s tok s' where
  spans := ⟨spans.type, spans.start, spans.stop,
    spans.moves.mono (fun _ => id) fun _ => False.elim⟩
  opens := fun begun opens => spans.moves.path.opens begun opens

/-- Two scanners that differ only in fields that do not place the cursor. -/
structure Alike (s q : Scanner) : Prop where
  buf : q.buf = s.buf
  len : q.len = s.len
  settings : q.settings = s.settings
  mark : q.mark = s.mark

namespace Alike

variable {q : Scanner}

theorem refl (s : Scanner) : Alike s s := ⟨rfl, rfl, rfl, rfl⟩

theorem trans (first : Alike s q) (second : Alike q s') : Alike s s' :=
  ⟨second.buf.trans first.buf, second.len.trans first.len,
    second.settings.trans first.settings, second.mark.trans first.mark⟩

theorem pos (alike : Alike s q) : q.pos = s.pos := congrArg Mark.offset alike.mark

theorem col (alike : Alike s q) : q.col = s.col := congrArg Mark.col alike.mark

theorem begins (alike : Alike s q) : q.begins = s.begins := congrArg Prod.fst alike.settings

theorem peekAt (alike : Alike s q) (n : Nat) : q.peekAt n = s.peekAt n := by
  simp only [Scanner.peekAt, Scanner.byte, alike.pos, alike.buf, alike.len]

theorem peek (alike : Alike s q) : q.peek = s.peek := alike.peekAt 0

theorem moves {lands : Nat → Prop} (alike : Alike s q) (reads : s.Reads text) :
    Moves text lands escapes s q :=
  .keep reads alike.buf alike.len alike.settings alike.mark

theorem unrollIndents (s : Scanner) (col : Int) : Alike s (s.unrollIndents col) := by
  obtain ⟨indent, indents, isNext⟩ := unrollIndents_eq s col
  rw [isNext]
  exact ⟨rfl, rfl, rfl, rfl⟩

theorem classifyColon (s : Scanner) : Alike s s.classifyColon.2 := by
  unfold Scanner.classifyColon
  split
  · exact ⟨rfl, rfl, rfl, rfl⟩
  split
  · exact ⟨rfl, rfl, rfl, rfl⟩
  split
  · exact .refl s
  split
  · split <;> exact .refl s
  · exact .refl s

theorem flowPop (s : Scanner) : Alike s s.flowPop.2 := by
  unfold Scanner.flowPop
  split
  · exact .refl s
  · dsimp only
    split <;> split <;> exact ⟨rfl, rfl, rfl, rfl⟩

end Alike

/-- An indicator of one byte. -/
structure OneByte (start : Mark) (s : Scanner) (tok : Token) (s' : Scanner) : Prop where
  type : tok.type.inside = true
  start : tok.start = start
  stop : tok.stop = s'.mark
  passed : ∃ q, Alike s q ∧ Alike (q.advance 1) s'

namespace OneByte

variable {start : Mark} {tok : Token}

theorem before {q : Scanner} (alike : Alike s q) (one : OneByte start q tok s') :
    OneByte start s tok s' := by
  obtain ⟨q', first, last⟩ := one.passed
  exact ⟨one.type, one.start, one.stop, q', alike.trans first, last⟩

theorem spans (one : OneByte s.mark s tok s') (reads : s.Reads text)
    (plain : isBreak s.peek = false) (notNul : s.peek ≠ 0) :
    Spans text escapes s.mark s tok s' ∧ s.pos < s'.pos := by
  obtain ⟨q, first, last⟩ := one.passed
  have kept : Moves text (unmarked text) escapes s q := first.moves reads
  have passed : Moves text (unmarked text) escapes q (q.advance 1) :=
    .advance kept.reads (first.peek ▸ plain)
  have after : Moves text (unmarked text) escapes (q.advance 1) s' := last.moves passed.reads
  constructor
  · exact ⟨one.type, one.start, one.stop, kept.trans (passed.trans after)⟩
  · rw [← first.pos]
    exact after.past_first kept.reads (first.peek ▸ notNul)

theorem indicatorToken {type : TokenType} (inside : type.inside = true)
    (ok : indicatorToken type start s = .ok tok s') : OneByte start s tok s' := by
  cases ok
  exact ⟨inside, rfl, rfl, s, .refl s, .refl _⟩

theorem blockIndicator {type : TokenType} {col : Int} (inside : type.inside = true)
    (ok : blockIndicator type start col s = .ok tok s') : OneByte start s tok s' := by
  cases ok
  refine ⟨inside, rfl, rfl, if col > s.indent then s.indentPush col else s, ?_,
    ⟨rfl, rfl, rfl, rfl⟩⟩
  split
  · exact ⟨rfl, rfl, rfl, rfl⟩
  · exact .refl s

theorem scanFlowIndicator {c : UInt8} (ok : scanFlowIndicator c start s = .ok tok s') :
    OneByte start s tok s' := by
  rw [Oyl.scanFlowIndicator] at ok
  split at ok
  · obtain ⟨_, q1, first, ok⟩ := bind_eq_ok ok
    obtain ⟨_, q2, second, ok⟩ := bind_eq_ok ok
    obtain ⟨_, q3, third, ok⟩ := bind_eq_ok ok
    refine before ?_ (indicatorToken (by split <;> rfl) ok)
    cases first
    cases second
    cases third
    exact ⟨rfl, rfl, rfl, rfl⟩
  split at ok
  · rw [get_bind_eq] at ok
    have popped := Alike.flowPop s
    generalize s.flowPop = found at popped ok
    obtain ⟨opening, q⟩ := found
    dsimp only at popped ok
    obtain ⟨_, _, stored, ok⟩ := bind_eq_ok ok
    cases ok
    cases stored
    have lower : Alike q { q with flowLevel := q.flowLevel - 1 } := ⟨rfl, rfl, rfl, rfl⟩
    exact ⟨by dsimp only [tokSimple]; split <;> rfl, rfl, rfl, _, popped.trans lower,
      ⟨rfl, rfl, rfl, rfl⟩⟩
  · obtain ⟨_, q1, first, ok⟩ := bind_eq_ok ok
    obtain ⟨_, q2, second, ok⟩ := bind_eq_ok ok
    refine before ?_ (indicatorToken rfl ok)
    cases first
    cases second
    dsimp only
    split <;> exact ⟨rfl, rfl, rfl, rfl⟩

theorem scanSeqEntry (ok : scanSeqEntry start s = .ok tok s') : OneByte start s tok s' := by
  rw [Oyl.scanSeqEntry, get_bind_eq] at ok
  split at ok
  · obtain ⟨_, _, failed, _⟩ := bind_eq_ok ok
    exact (scanError_ok failed).elim
  split at ok
  · obtain ⟨_, _, failed, _⟩ := bind_eq_ok ok
    exact (scanError_ok failed).elim
  · exact blockIndicator rfl ok

theorem scanKeyIndicator (ok : scanKeyIndicator start s = .ok tok s') :
    OneByte start s tok s' := by
  rw [Oyl.scanKeyIndicator, get_bind_eq] at ok
  split at ok
  · dsimp only at ok
    split at ok
    · obtain ⟨_, _, failed, _⟩ := bind_eq_ok ok
      exact (scanError_ok failed).elim
    split at ok
    · obtain ⟨_, _, failed, _⟩ := bind_eq_ok ok
      exact (scanError_ok failed).elim
    obtain ⟨tok', q, scanned, ok⟩ := bind_eq_ok ok
    obtain ⟨type, isStart, stop, q', first, last⟩ := blockIndicator rfl scanned
    cases ok
    exact ⟨type, isStart, stop, q', first, last.trans ⟨rfl, rfl, rfl, rfl⟩⟩
  · obtain ⟨_, q, stored, ok⟩ := bind_eq_ok ok
    refine before ?_ (indicatorToken rfl ok)
    cases stored
    exact ⟨rfl, rfl, rfl, rfl⟩

theorem scanBlockValue (ok : scanBlockValue start s = .ok tok s') : OneByte start s tok s' := by
  rw [Oyl.scanBlockValue, get_bind_eq] at ok
  dsimp only at ok
  obtain ⟨_, q, stored, ok⟩ := bind_eq_ok ok
  have classified : Alike s q := by
    cases stored
    exact .classifyColon s
  refine before classified ?_
  split at ok
  · obtain ⟨_, _, failed, _⟩ := bind_eq_ok ok
    exact (scanError_ok failed).elim
  split at ok
  · split at ok
    · obtain ⟨_, _, failed, _⟩ := bind_eq_ok ok
      exact (scanError_ok failed).elim
    split at ok
    · obtain ⟨_, _, failed, _⟩ := bind_eq_ok ok
      exact (scanError_ok failed).elim
    obtain ⟨_, q', noted, ok⟩ := bind_eq_ok ok
    refine before ?_ (blockIndicator rfl ok)
    cases stored
    cases noted
    exact ⟨rfl, rfl, rfl, rfl⟩
  · exact blockIndicator rfl ok

theorem scanFlowValue (ok : scanFlowValue start s = .ok tok s') : OneByte start s tok s' := by
  rw [Oyl.scanFlowValue] at ok
  obtain ⟨_, q, stored, ok⟩ := bind_eq_ok ok
  have unquoted : Alike s q := by
    cases stored
    exact ⟨rfl, rfl, rfl, rfl⟩
  refine before unquoted ?_
  rw [get_bind_eq] at ok
  dsimp only at ok
  obtain ⟨_, q', stored', ok⟩ := bind_eq_ok ok
  have classified : Alike q q' := by
    cases stored'
    exact .classifyColon q
  refine before classified ?_
  split at ok
  · obtain ⟨_, _, failed, _⟩ := bind_eq_ok ok
    exact (scanError_ok failed).elim
  · exact indicatorToken rfl ok

end OneByte

/-! ### The other tokens -/

theorem scanDocMarker_spans {type : TokenType} {start : Mark} {tok : Token} {c : UInt8}
    (reads : s.Reads text) (isMarker : s.atDocIndicator c = true) (notNul : c ≠ 0)
    (notBreak : isBreak c = false) (inside : type.inside = true)
    (ok : scanDocMarker type start s = .ok tok s') :
    (Spans text escapes start s tok s' ∧ s.pos < s'.pos) ∧ tok.type = type := by
  rw [scanDocMarker] at ok
  obtain ⟨_, q, stored, rest⟩ := bind_eq_ok ok
  have isNext : q = (s.unrollIndents (-1)).advance 3 := by
    cases stored
    rfl
  have unrolled := Alike.unrollIndents s (-1)
  generalize s.unrollIndents (-1) = p at unrolled isNext
  obtain ⟨_, first, second, third, _⟩ := (atDocIndicator_iff reads notNul).mp isMarker
  have kept : Moves text (unmarked text) escapes s p := unrolled.moves reads
  have plain : ∀ i < 3, isBreak (byteAt text (p.pos + i)) = false := by
    intro i below
    rw [unrolled.pos]
    obtain rfl | rfl | rfl : i = 0 ∨ i = 1 ∨ i = 2 := by omega
    · rw [Nat.add_zero, first, notBreak]
    · rw [second, notBreak]
    · rw [third, notBreak]
  have passed : Moves text (unmarked text) escapes p q := isNext ▸ .advanceBy kept.reads plain
  have further : s.pos < q.pos := by
    have one : Moves text (unmarked text) escapes p (p.advance 1) :=
      .advanceBy kept.reads fun i below => plain i (Nat.lt_trans below (by decide))
    have pos : (p.advance 1).pos = p.pos + 1 := by
      apply Moves.advance_pos kept.reads
      by_contra outside
      rw [← unrolled.pos, byteAt_outside (Nat.not_lt.mp outside)] at first
      exact notNul first.symm
    have two : Moves text (unmarked text) escapes (p.advance 1) ((p.advance 1).advance 2) :=
      .advanceBy one.reads fun i below => by
        rw [pos, Nat.add_assoc, Nat.add_comm 1]
        exact plain (i + 1) (Nat.succ_lt_succ below)
    rw [isNext, Moves.advance_succ]
    have := two.pos_le
    have := unrolled.pos
    omega
  have finish (ok : (pure (tokSimple type start q.mark) : ScanM Token) q = .ok tok s') :
      (Spans text escapes start s tok s' ∧ s.pos < s'.pos) ∧ tok.type = type := by
    cases ok
    exact ⟨⟨⟨inside, rfl, rfl, kept.trans passed⟩, further⟩, rfl⟩
  rw [get_bind_eq] at rest
  dsimp only at rest
  split at rest
  · split at rest
    · obtain ⟨_, _, failed, _⟩ := bind_eq_ok rest
      exact (scanError_ok failed).elim
    · exact finish rest
  · exact finish rest

theorem scanDirective_spans {start : Mark} {tok : Token} (reads : s.Reads text)
    (isDirective : s.peek = percent) (ok : scanDirective start s = .ok tok s') :
    Spans text escapes start s tok s' ∧ s.pos < s'.pos := by
  rw [scanDirective, get_bind_eq] at ok
  have run : Moves text (unmarked text) escapes s (s.advanceCols (scanToBreak s.rest)) :=
    .run reads fun c plain => by simpa using plain
  have some : 0 < scanToBreak s.rest := by
    apply Nat.pos_of_ne_zero
    intro none
    rw [reads.peek_eq] at isDirective
    have inside : s.pos < text.length := by
      by_contra outside
      rw [byteAt_outside (Nat.not_lt.mp outside)] at isDirective
      cases isDirective
    have next := runLength_next (fun c => !isBreak c) s.rest (by
      change scanToBreak s.rest < _
      rw [none, reads.rest_eq, List.length_drop]
      omega)
    change (fun c => !isBreak c) (s.rest.getD (scanToBreak s.rest) 0) = false at next
    rw [none, reads.rest_eq, getD_drop, Nat.add_zero, isDirective] at next
    cases next
  cases ok
  exact ⟨⟨rfl, rfl, rfl, run⟩, Nat.lt_add_of_pos_right some⟩

/-- The cursor is at the first byte of a token. -/
structure Scanner.AtToken (text : Bytes) (s : Scanner) : Prop where
  reads : s.Reads text
  inside : s.pos < text.length
  notGap : isBlankOrBreak s.peek = false
  notHash : s.peek ≠ hash

/-- A `:` right before an opening bracket in a flow collection, that follows no
quoted scalar or closing bracket. -/
def Scanner.stalls (s : Scanner) : Bool :=
  s.flowLevel > 0 && !s.lastWasQuoted && s.peek == colon &&
    (s.peekAt 1 == lbracket || s.peekAt 1 == lbrace)

/-- A token moves the cursor, unless it stalls. -/
def Proceeds (s s' : Scanner) : Prop :=
  (s.stalls = true → s'.pos = s.pos) ∧ (s.stalls = false → s.pos < s'.pos)

theorem Scanner.AtToken.notBreak (atToken : s.AtToken text) : isBreak s.peek = false := by
  have notGap := atToken.notGap
  rw [isBlankOrBreak, Bool.or_eq_false_iff] at notGap
  exact notGap.2

theorem Proceeds.of_peek (further : s.pos < s'.pos) (notColon : s.peek ≠ colon) :
    Proceeds s s' := by
  constructor
  · intro stalls
    simp only [Scanner.stalls, Bool.and_eq_true, beq_iff_eq] at stalls
    exact absurd stalls.1.2 notColon
  · exact fun _ => further

/-- A `:` that is no value indicator: what follows it. -/
structure Scanner.PlainColon (s : Scanner) : Prop where
  notGap : isBlankOrBreak (s.peekAt 1) = false
  notNul : s.peekAt 1 ≠ 0
  inFlow : s.flowLevel > 0 → s.lastWasQuoted = false ∧ s.peekAt 1 ≠ comma ∧
    s.peekAt 1 ≠ rbracket ∧ s.peekAt 1 ≠ rbrace

/-- The plain scalar of `scanContent`. -/
theorem scanPlainContent_at {tok : Token} (atToken : s.AtToken text)
    (notFlow : isFlow s.peek = false) (value : s.peek = colon → s.PlainColon)
    (ok : scanPlainScalar { s with lastWasQuoted := false } = .ok tok s') :
    TokenAt text s tok s' ∧ Proceeds s s' := by
  have unquoted : Alike s { s with lastWasQuoted := false } := ⟨rfl, rfl, rfl, rfl⟩
  have kept : Moves text (unmarked text) noEscape s { s with lastWasQuoted := false } :=
    unquoted.moves atToken.reads
  refine ⟨((scanPlainScalar_spans kept.reads ok).after kept).lines.tokenAt, ?_, ?_⟩
  · intro stalls
    simp only [Scanner.stalls, Bool.and_eq_true, beq_iff_eq, Bool.or_eq_true,
      decide_eq_true_eq] at stalls
    obtain ⟨⟨⟨inFlow, _⟩, isColon⟩, opening⟩ := stalls
    have isFlow : isFlow (s.peekAt 1) = true := by
      rcases opening with opening | opening <;> rw [opening] <;> rfl
    exact scanPlainScalar_stall (s := { s with lastWasQuoted := false }) inFlow isColon
      (by rw [atToken.reads.len]; exact atToken.inside) isFlow ok
  · intro goes
    apply scanPlainScalar_progress kept.reads ?_ ok
    refine ⟨atToken.inside, atToken.notGap, atToken.notHash, fun _ => notFlow, fun isColon => ?_⟩
    obtain ⟨notGap, notNul, closing⟩ := value isColon
    refine ⟨notGap, notNul, fun inFlow => ?_⟩
    obtain ⟨notQuoted, notComma, notBracket, notBrace⟩ := closing inFlow
    simp only [Scanner.stalls, notQuoted, show s.peek = colon from isColon,
      decide_eq_true inFlow, Bool.not_false, beq_self_eq_true, Bool.and_self, Bool.true_and,
      Bool.or_eq_false_iff, beq_eq_false_iff_ne] at goes
    change isFlow (s.peekAt 1) = false
    simp [isFlow, goes, notComma, notBracket, notBrace]

/-- The quoted scalar of `scanContent` that may escape breaks. -/
theorem scanDoubleQuoted_at {tok : Token} (atToken : s.AtToken text) (isQuote : s.peek = dquote)
    (ok : scanDoubleQuoted { s with lastWasQuoted := false } = .ok tok s') :
    TokenAt text s tok s' ∧ s.pos < s'.pos := by
  have unquoted : Alike s { s with lastWasQuoted := false } := ⟨rfl, rfl, rfl, rfl⟩
  have kept : Moves text (unmarked text) (quotedEscapes text s.pos) s
      { s with lastWasQuoted := false } := unquoted.moves atToken.reads
  obtain ⟨⟨spans, further⟩, closed⟩ := scanDoubleQuoted_spans kept.reads isQuote ok
  have whole := spans.after kept
  refine ⟨⟨?_, ?_⟩, further⟩
  · refine ⟨whole.type, whole.start, whole.stop,
      whole.moves.mono (fun _ => .inl) fun e escaped => ?_⟩
    rw [atToken.reads.peek_eq] at isQuote
    rw [tokenEscapes, if_pos (beq_iff_eq.mpr isQuote)]
    exact escaped
  · intro begun _ starts
    -- the closing quote ends no line
    rcases starts with first | ⟨_, isEnd⟩
    · have : s'.pos = s.begins := first
      have : s.pos < s'.pos := further
      omega
    · rw [show s'.mark.offset = s'.pos from rfl, breakEnds_of_not_isBreak (by rw [closed]; rfl)]
        at isEnd
      cases isEnd

theorem scanContent_at {tok : Token} (atToken : s.AtToken text)
    (notFlow : isFlow s.peek = false) (value : s.peek = colon → s.PlainColon)
    (ok : scanContent s.peek s.mark s = .ok tok s') :
    TokenAt text s tok s' ∧ Proceeds s s' := by
  rw [scanContent] at ok
  obtain ⟨_, q, stored, rest⟩ := bind_eq_ok ok
  have isNext : q = { s with lastWasQuoted := false } := by
    cases stored
    rfl
  have unquoted : Alike s q := isNext ▸ ⟨rfl, rfl, rfl, rfl⟩
  have kept : Moves text (unmarked text) noEscape s q := unquoted.moves atToken.reads
  have one (spans : Spans text noEscape q.mark q tok s' ∧ q.pos < s'.pos)
      (notColon : s.peek ≠ colon) : TokenAt text s tok s' ∧ Proceeds s s' := by
    rw [unquoted.mark, unquoted.pos] at spans
    exact ⟨(spans.1.after kept).lines.tokenAt, .of_peek spans.2 notColon⟩
  have notBreak := atToken.notBreak
  rw [← unquoted.peek] at notBreak
  rw [get_bind_eq] at rest
  dsimp only at rest
  split at rest
  · rename_i isTag
    have isTag := beq_iff_eq.mp isTag
    apply one _ (by rw [isTag]; decide)
    exact scanTag_spans kept.reads (unquoted.peek ▸ isTag) rest
  split at rest
  · rename_i isName
    have known : s.peek ≠ 0 ∧ s.peek ≠ colon := by
      simp only [Bool.or_eq_true, beq_iff_eq] at isName
      rcases isName with isName | isName <;> rw [isName] <;> decide
    apply one _ known.2
    exact scanAnchorOrAlias_spans kept.reads notBreak (unquoted.peek ▸ known.1) rest
  split at rest
  · rename_i isQuote
    have isQuote := beq_iff_eq.mp isQuote
    apply one _ (by rw [isQuote]; decide)
    exact scanSingleQuoted_spans kept.reads (unquoted.peek ▸ isQuote) rest
  split at rest
  · rename_i isQuote
    have isQuote := beq_iff_eq.mp isQuote
    obtain ⟨at', further⟩ := scanDoubleQuoted_at atToken isQuote (isNext ▸ rest)
    exact ⟨at', .of_peek further (by rw [isQuote]; decide)⟩
  split at rest
  · rename_i isBlock
    have known : s.peek ≠ 0 ∧ s.peek ≠ colon := by
      simp only [Bool.and_eq_true, Bool.or_eq_true, beq_iff_eq] at isBlock
      rcases isBlock.1 with isBlock | isBlock <;> rw [isBlock] <;> decide
    obtain ⟨spans, further⟩ : SpansLines text noEscape s.mark q tok s' ∧ q.pos < s'.pos :=
      scanBlockScalar_spans kept.reads notBreak (unquoted.peek ▸ known.1) rest
    have whole : SpansLines text noEscape s.mark s tok s' :=
      ⟨spans.type, spans.start, spans.stop,
        (kept.mono (fun _ => .inl) fun _ => id).trans spans.moves⟩
    exact ⟨whole.tokenAt, .of_peek (unquoted.pos ▸ further) known.2⟩
  · split at rest
    · obtain ⟨_, _, failed, _⟩ := bind_eq_ok rest
      exact (scanError_ok failed).elim
    · exact scanPlainContent_at atToken notFlow value (isNext ▸ rest)

theorem TokenAt.before {q : Scanner} {tok : Token} (alike : Alike s q) (reads : s.Reads text)
    (at' : TokenAt text q tok s') : TokenAt text s tok s' := by
  obtain ⟨⟨type, isStart, stop, moves⟩, opens⟩ := at'
  rw [alike.pos] at moves opens
  rw [alike.mark, alike.begins] at opens
  exact ⟨⟨type, alike.mark ▸ isStart, stop, (alike.moves reads).trans moves⟩, opens⟩

/-- `scan_at_token`: the token at the cursor. -/
theorem scanAtToken_at {tok : Token} (here : s.AtToken text) (ok : scanAtToken s = .ok tok s') :
    TokenAt text s tok s' ∧ Proceeds s s' ∧
      (s.col = 1 → markerAt text s.pos = true → tok.type = .docStart ∨ tok.type = .docEnd) := by
  rw [scanAtToken] at ok
  obtain ⟨_, q, stored, rest⟩ := bind_eq_ok ok
  have unrolled : Alike s q ∧ q.flowLevel = s.flowLevel ∧ q.lastWasQuoted = s.lastWasQuoted := by
    cases stored
    dsimp only
    split
    · obtain ⟨indent, indents, isNext⟩ := unrollIndents_eq s s.column
      rw [isNext]
      exact ⟨⟨rfl, rfl, rfl, rfl⟩, rfl, rfl⟩
    · exact ⟨.refl s, rfl, rfl⟩
  obtain ⟨alike, flowLevel, lastWasQuoted⟩ := unrolled
  have kept : Moves text (unmarked text) noEscape s q := alike.moves here.reads
  have reads := kept.reads
  have atToken : q.AtToken text :=
    ⟨reads, alike.pos ▸ here.inside, alike.peek ▸ here.notGap, alike.peek ▸ here.notHash⟩
  have back (at' : TokenAt text q tok s' ∧ Proceeds q s') : TokenAt text s tok s' ∧
      Proceeds s s' := by
    obtain ⟨at', proceeds⟩ := at'
    refine ⟨at'.before alike here.reads, ?_⟩
    rw [Proceeds, alike.pos, Scanner.stalls, flowLevel, lastWasQuoted, alike.peek, alike.peekAt]
      at proceeds
    exact proceeds
  have one (spans : Spans text noEscape q.mark q tok s' ∧ q.pos < s'.pos)
      (notColon : q.peek ≠ colon) : TokenAt text q tok s' ∧ Proceeds q s' :=
    ⟨spans.1.lines.tokenAt, .of_peek spans.2 notColon⟩
  have oneByte (one : OneByte q.mark q tok s') (notNul : q.peek ≠ 0) :
      Spans text noEscape q.mark q tok s' ∧ q.pos < s'.pos :=
        one.spans reads atToken.notBreak notNul
  have marker {c : UInt8} (isMarker : q.atDocIndicator c = true) (notNul : c ≠ 0) : q.peek = c := by
    rw [reads.peek_eq]
    exact ((atDocIndicator_iff reads notNul).mp isMarker).2.1
  rw [get_bind_eq] at rest
  rw [← alike.col, ← alike.pos]
  split at rest
  · rename_i isMarker
    obtain ⟨spans, type⟩ := scanDocMarker_spans reads isMarker (by decide) (by decide) rfl rest
    obtain ⟨at', proceeds⟩ := back (one spans (by rw [marker isMarker (by decide)]; decide))
    exact ⟨at', proceeds, fun _ _ => .inl type⟩
  split at rest
  · rename_i isMarker
    obtain ⟨spans, type⟩ := scanDocMarker_spans reads isMarker (by decide) (by decide) rfl rest
    obtain ⟨at', proceeds⟩ := back (one spans (by rw [marker isMarker (by decide)]; decide))
    exact ⟨at', proceeds, fun _ _ => .inr type⟩
  rename_i notDash notDot
  suffices found : TokenAt text q tok s' ∧ Proceeds q s' by
    obtain ⟨at', proceeds⟩ := back found
    refine ⟨at', proceeds, fun atStart marked => ?_⟩
    rcases atDocIndicator_of_marker reads atStart marked with isDash | isDot
    · exact absurd isDash notDash
    · exact absurd isDot notDot
  split at rest
  · rename_i isDirective
    simp only [Bool.and_eq_true, beq_iff_eq] at isDirective
    apply one (scanDirective_spans reads isDirective.1.1 rest)
    rw [isDirective.1.1]
    decide
  split at rest
  · rename_i isFlow
    have known : q.peek ≠ 0 ∧ q.peek ≠ colon := by
      constructor <;> intro same <;> rw [same] at isFlow <;> cases isFlow
    exact one (oneByte (.scanFlowIndicator rest) known.1) known.2
  rename_i notFlow
  split at rest
  · rename_i isEntry
    simp only [Bool.and_eq_true, beq_iff_eq] at isEntry
    have isDash := isEntry.1.1
    apply one (oneByte (.scanSeqEntry rest) _) <;> rw [isDash] <;> decide
  split at rest
  · rename_i isKey
    simp only [Bool.and_eq_true, beq_iff_eq] at isKey
    have isQuestion := isKey.1
    apply one (oneByte (.scanKeyIndicator rest) _) <;> rw [isQuestion] <;> decide
  split at rest
  · rename_i isValue
    simp only [Bool.and_eq_true, beq_iff_eq] at isValue
    obtain ⟨spans, further⟩ := oneByte (.scanBlockValue rest) (by rw [isValue.1.1]; decide)
    refine ⟨spans.lines.tokenAt, fun stalls => ?_, fun _ => further⟩
    simp [Scanner.stalls, isValue.1.2] at stalls
  rename_i notBlockValue
  split at rest
  · rename_i isValue
    have isColon : q.peek = colon := by
      simp only [Bool.and_eq_true, beq_iff_eq] at isValue
      exact isValue.1.1
    obtain ⟨spans, further⟩ := oneByte (.scanFlowValue rest) (by rw [isColon]; decide)
    refine ⟨spans.lines.tokenAt, fun stalls => ?_, fun _ => further⟩
    simp only [Scanner.stalls, Bool.and_eq_true, Bool.not_eq_true', Bool.or_eq_true,
      beq_iff_eq] at stalls
    rw [stalls.1.1.2] at isValue
    rcases stalls.2 with opening | opening <;> rw [opening] at isValue <;> simp at isValue
    all_goals exact absurd isValue.2 (by decide)
  rename_i notFlowValue
  refine scanContent_at atToken (Bool.eq_false_iff.mpr notFlow) (fun isColon => ?_) rest
  rw [isColon] at notBlockValue notFlowValue
  simp only [beq_self_eq_true, Bool.true_and, Bool.and_eq_true, Bool.or_eq_true, beq_iff_eq,
    decide_eq_true_eq, not_and, not_or, Bool.not_eq_true] at notBlockValue notFlowValue
  by_cases inFlow : q.flowLevel = 0
  · obtain ⟨notGap, notNul⟩ := notBlockValue inFlow
    exact ⟨notGap, notNul, fun inFlow' => absurd inFlow (Nat.ne_of_gt inFlow')⟩
  · obtain ⟨⟨⟨⟨⟨notGap, notNul⟩, notComma⟩, notBracket⟩, notBrace⟩, notQuoted⟩ :=
      notFlowValue (Nat.pos_of_ne_zero inFlow)
    exact ⟨notGap, notNul, fun _ => ⟨notQuoted, notComma, notBracket, notBrace⟩⟩

end

end Oyl
