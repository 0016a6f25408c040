import Oyl.Tokens.BlockHeader
import Oyl.Tokens.Runs

/-!
# Which scanner reads a scalar

Every scalar token comes from the scanner of its style, called with the cursor on the
scalar's first byte.
-/

namespace Oyl

open StateError

/-- The state in which `scanAtToken` calls the scanner of a scalar. -/
def Scanner.atScalar (s : Scanner) : Scanner :=
  { (if s.flowLevel == 0 then s.unrollIndents s.column else s) with lastWasQuoted := false }

/-- A scalar token and the scanner that reads it. -/
inductive ReadsScalar (s : Scanner) (tok : Token) (s' : Scanner) : Prop
  | plain : tok.scalarStyle = .plain → scanPlainScalar s = .ok tok s' → ReadsScalar s tok s'
  | single : tok.scalarStyle = .singleQuoted → s.peek = squote →
      scanSingleQuoted s = .ok tok s' → ReadsScalar s tok s'
  | double : tok.scalarStyle = .doubleQuoted → s.peek = dquote →
      scanDoubleQuoted s = .ok tok s' → ReadsScalar s tok s'
  | block : tok.scalarStyle = .literal ∨ tok.scalarStyle = .folded → s.flowLevel = 0 →
      scanBlockScalar s.mark s = .ok tok s' → ReadsScalar s tok s'

/-- A token that is no scalar. -/
def NoScalar (tok : Token) : Prop := tok.type ≠ .scalar

section

variable {text : Bytes} {s s' : Scanner} {tok : Token}

theorem indicatorToken_noScalar {type : TokenType} {start : Mark} (known : type ≠ .scalar) :
    Returns NoScalar (indicatorToken type start) :=
  .bind fun _ => .bind fun _ => .pure known

theorem blockIndicator_noScalar {type : TokenType} {start : Mark} {col : Int}
    (known : type ≠ .scalar) : Returns NoScalar (blockIndicator type start col) :=
  .bind fun _ => .bind fun _ => .bind fun _ => .bind fun _ => .pure known

theorem scanFlowIndicator_noScalar {c : UInt8} {start : Mark} :
    Returns NoScalar (scanFlowIndicator c start) := by
  apply Returns.ite
  · refine .bind fun _ => .bind fun _ => .bind fun _ => indicatorToken_noScalar ?_
    split <;> exact TokenType.noConfusion
  apply Returns.ite
  · refine .bind fun s => .bind fun _ => .pure ?_
    dsimp only [NoScalar, tokSimple]
    split <;> exact TokenType.noConfusion
  · exact .bind fun _ => .bind fun _ => indicatorToken_noScalar TokenType.noConfusion

theorem scanSeqEntry_noScalar {start : Mark} : Returns NoScalar (scanSeqEntry start) := by
  refine .bind fun s => ?_
  have rest : Returns NoScalar (blockIndicator .blockSeqEntry start s.column) :=
    blockIndicator_noScalar TokenType.noConfusion
  apply Returns.ite
  · exact .bind fun _ => .ite (.bind fun _ => rest) rest
  · exact .ite (.bind fun _ => rest) rest

theorem scanKeyIndicator_noScalar {start : Mark} : Returns NoScalar (scanKeyIndicator start) := by
  refine .bind fun s => ?_
  apply Returns.ite
  · have indicator : Returns NoScalar (blockIndicator .blockMapKey start s.column) :=
      blockIndicator_noScalar TokenType.noConfusion
    have rest : Returns NoScalar (do
        let tok ← blockIndicator .blockMapKey start s.column
        modify fun s => { s with explicitKey := true, explicitDepth := s.flows.length }
        return tok) := .bindOf indicator fun _ known => .bind fun _ => .pure known
    exact .ite (.bind fun _ => .ite (.bind fun _ => rest) rest) (.ite (.bind fun _ => rest) rest)
  · exact .bind fun _ => indicatorToken_noScalar TokenType.noConfusion

theorem scanBlockValue_noScalar {start : Mark} : Returns NoScalar (scanBlockValue start) := by
  refine .bind fun s => .bind fun _ => ?_
  have rest (col : Int) : Returns NoScalar (blockIndicator .blockMapValue start col) :=
    blockIndicator_noScalar TokenType.noConfusion
  have implicit (q : Scanner) : Returns NoScalar (do
      set q
      blockIndicator .blockMapValue start (min s.keyColumn s.column)) := .bind fun _ => rest _
  have kinds : Returns NoScalar (do
      if s.classifyColon.1 == .implicit then
        if s.classifyColon.2.keyColonLine == s.classifyColon.2.line then
          scanError "mapping values are not allowed on the same line as another key"
        if s.classifyColon.2.tabAfterIndicator s.classifyColon.2.nodeStart then
          scanError "tabs are not allowed before a nested block collection"
        set { s.classifyColon.2 with keyColonLine := s.classifyColon.2.line }
        blockIndicator .blockMapValue start (min s.keyColumn s.column)
      else blockIndicator .blockMapValue start s.column) :=
    .ite (.ite (.bind fun _ => .ite (.bind fun _ => implicit _) (implicit _))
      (.ite (.bind fun _ => implicit _) (implicit _))) (rest _)
  exact .ite (.bind fun _ => kinds) kinds

theorem scanFlowValue_noScalar {start : Mark} : Returns NoScalar (scanFlowValue start) := by
  refine .bind fun _ => .bind fun s => .bind fun _ => ?_
  have rest : Returns NoScalar (indicatorToken .blockMapValue start) :=
    indicatorToken_noScalar TokenType.noConfusion
  exact .ite (.bind fun _ => rest) rest

theorem scanDocMarker_noScalar {type : TokenType} {start : Mark} (known : type ≠ .scalar) :
    Returns NoScalar (scanDocMarker type start) := by
  refine .bind fun _ => .bind fun s => ?_
  have rest : Returns NoScalar (pure (tokSimple type start s.mark) : ScanM Token) := .pure known
  exact .ite (.ite (.bind fun _ => rest) rest) rest

theorem scanDirective_noScalar {start : Mark} : Returns NoScalar (scanDirective start) :=
  .bind fun _ => .bind fun _ => .pure TokenType.noConfusion

theorem finishName_noScalar {type : TokenType} {start : Mark} {valueStart : Nat}
    (known : type ≠ .scalar) : Returns NoScalar (finishName type start valueStart) :=
  .bind fun _ => .bind fun _ => .pure known

theorem scanTag_noScalar : Returns NoScalar scanTag := by
  have rest (start : Mark) : Returns NoScalar (finishName .tag start start.offset) :=
    finishName_noScalar TokenType.noConfusion
  refine .bind fun s => .bind fun _ => .bind fun _ => .ite ?_ ?_
  · exact .bind fun _ => .bind fun _ => .bind fun _ =>
      .ite (.bind fun _ => .bind fun _ => rest _) (.bind fun _ => rest _)
  · exact .ite (.bind fun _ => .bind fun _ => rest _) (.bind fun _ => rest _)

theorem scanAnchorOrAlias_noScalar : Returns NoScalar scanAnchorOrAlias := by
  have rest (isAnchor : Bool) (start : Mark) (nameStart : Nat) :
      Returns NoScalar (finishName (if isAnchor then .anchor else .alias) start nameStart) := by
    apply finishName_noScalar
    split <;> exact TokenType.noConfusion
  exact .bind fun _ => .bind fun _ => .bind fun _ => .bind fun _ => .bind fun _ => .bind fun _ =>
    .bind fun _ => .ite (.bind fun _ => rest _ _ _) (rest _ _ _)

/-! ### The dispatch -/

theorem finishQuoted_style {style : ScalarStyle} {start : Mark} {value : Bytes} :
    Returns (fun tok => tok.scalarStyle = style) (finishQuoted style start value) :=
  .bind fun _ => .bind fun _ => .bind fun _ => .pure rfl

theorem scanSingleQuoted_style :
    Returns (fun tok => tok.scalarStyle = .singleQuoted) scanSingleQuoted := by
  refine .bind fun _ => .bind fun _ => .bind fun _ => .ite (.bind fun _ => finishQuoted_style) ?_
  refine .bind fun _ => .bind fun _ => .ite ?_ (.bind fun _ => finishQuoted_style)
  exact .bind fun _ => .bind fun _ => finishQuoted_style

theorem scanDoubleQuoted_style :
    Returns (fun tok => tok.scalarStyle = .doubleQuoted) scanDoubleQuoted := by
  refine .bind fun _ => .bind fun _ => .bind fun _ => .ite (.bind fun _ => finishQuoted_style) ?_
  refine .bind fun _ => .bind fun _ => .ite ?_ (.bind fun _ => finishQuoted_style)
  exact .bind fun _ => .bind fun _ => finishQuoted_style

theorem scanPlainScalar_style :
    Returns (fun tok => tok.scalarStyle = .plain) scanPlainScalar :=
  .bind fun _ => .bind fun _ => .bind fun _ => .bind fun _ => .bind fun _ => .pure rfl

theorem scanBlockScalar_style {start : Mark} :
    Returns (fun tok => tok.scalarStyle = .literal ∨ tok.scalarStyle = .folded)
      (scanBlockScalar start) := by
  rw [scanBlockScalar_eq]
  refine .bind fun s => .bind fun header => .bind fun base => .bind fun q => ?_
  split
  · exact .bind fun _ => .throw
  · refine .bind fun _ => .pure ?_
    dsimp only [tokScalar, Scanner.blockStyle]
    split
    · exact .inl rfl
    · exact .inr rfl

theorem scanContent_scalar (isScalar : tok.type = .scalar)
    (ok : scanContent s.peek s.mark s = .ok tok s') :
    ReadsScalar { s with lastWasQuoted := false } tok s' := by
  rw [scanContent] at ok
  obtain ⟨_, q, stored, rest⟩ := bind_eq_ok ok
  have isNext : q = { s with lastWasQuoted := false } := by
    cases stored
    rfl
  subst isNext
  rw [get_bind_eq] at rest
  split at rest
  · exact absurd isScalar (scanTag_noScalar _ _ _ rest)
  split at rest
  · exact absurd isScalar (scanAnchorOrAlias_noScalar _ _ _ rest)
  split at rest
  · rename_i isQuote
    exact .single (scanSingleQuoted_style _ _ _ rest) (beq_iff_eq.mp isQuote) rest
  split at rest
  · rename_i isQuote
    exact .double (scanDoubleQuoted_style _ _ _ rest) (beq_iff_eq.mp isQuote) rest
  split at rest
  · rename_i isBlock
    simp only [Bool.and_eq_true, beq_iff_eq] at isBlock
    exact .block (scanBlockScalar_style _ _ _ rest) isBlock.2 rest
  dsimp only at rest
  split at rest
  · obtain ⟨_, _, failed, _⟩ := bind_eq_ok rest
    exact (scanError_ok failed).elim
  · exact .plain (scanPlainScalar_style _ _ _ rest) rest

/-- Every scalar token is read by the scanner of its style. -/
theorem scanAtToken_scalar (isScalar : tok.type = .scalar) (ok : scanAtToken s = .ok tok s') :
    ReadsScalar s.atScalar tok s' := by
  rw [scanAtToken] at ok
  obtain ⟨_, q, stored, rest⟩ := bind_eq_ok ok
  have isNext : q = if s.flowLevel == 0 then s.unrollIndents s.column else s := by
    cases stored
    rfl
  rw [Scanner.atScalar, ← isNext]
  rw [get_bind_eq] at rest
  split at rest
  · exact absurd isScalar (scanDocMarker_noScalar TokenType.noConfusion _ _ _ rest)
  split at rest
  · exact absurd isScalar (scanDocMarker_noScalar TokenType.noConfusion _ _ _ rest)
  split at rest
  · exact absurd isScalar (scanDirective_noScalar _ _ _ rest)
  split at rest
  · exact absurd isScalar (scanFlowIndicator_noScalar _ _ _ rest)
  split at rest
  · exact absurd isScalar (scanSeqEntry_noScalar _ _ _ rest)
  split at rest
  · exact absurd isScalar (scanKeyIndicator_noScalar _ _ _ rest)
  split at rest
  · exact absurd isScalar (scanBlockValue_noScalar _ _ _ rest)
  split at rest
  · exact absurd isScalar (scanFlowValue_noScalar _ _ _ rest)
  · exact scanContent_scalar isScalar rest

theorem Scanner.atScalar_alike (s : Scanner) : Alike s s.atScalar := by
  unfold Scanner.atScalar
  split
  · have unrolled := Alike.unrollIndents s s.column
    exact unrolled.trans ⟨rfl, rfl, rfl, rfl⟩
  · exact ⟨rfl, rfl, rfl, rfl⟩

theorem Scanner.atScalar_flowLevel (s : Scanner) : s.atScalar.flowLevel = s.flowLevel := by
  unfold Scanner.atScalar
  split
  · obtain ⟨indent, indents, isNext⟩ := unrollIndents_eq s s.column
    rw [isNext]
  · rfl

theorem Scanner.AtToken.atScalar (atToken : s.AtToken text) : s.atScalar.AtToken text :=
  have alike := s.atScalar_alike
  ⟨(alike.moves atToken.reads : Moves text anyLine noEscape _ _).reads,
    alike.pos ▸ atToken.inside, alike.peek ▸ atToken.notGap, alike.peek ▸ atToken.notHash⟩

/-- A cursor that is on a byte. -/
theorem byte_of_peek {c : UInt8} (isByte : s.peek = c) (known : c ≠ 0) : s.byte s.pos = c := by
  rw [Scanner.peek, Scanner.peekAt] at isByte
  split at isByte
  · exact isByte
  · exact absurd isByte.symm known

/-- A document marker starts with its own byte. -/
theorem atDocIndicator_of_byte {c : UInt8} (other : s.byte s.pos ≠ c) :
    s.atDocIndicator c = false := by
  rw [Scanner.atDocIndicator, beq_false_of_ne other, Bool.and_false, Bool.false_and, Bool.false_and,
    Bool.false_and]

/-- No indicator that `scanAtToken` looks for itself. -/
def startsContent (c : UInt8) : Bool :=
  !(c == 0 || c == dash || c == dot || c == percent || isFlow c || c == question || c == colon)

/-- Other bytes start a scalar, an anchor, an alias or a tag. -/
theorem scanAtToken_content (content : startsContent s.peek = true) :
    scanAtToken s = scanContent s.peek s.mark
      (if s.flowLevel == 0 then s.unrollIndents s.column else s) := by
  obtain ⟨q, isNext, peek, mark⟩ : ∃ q : Scanner,
      (if s.flowLevel == 0 then s.unrollIndents s.column else s) = q ∧ q.peek = s.peek ∧
        q.mark = s.mark := by
    refine ⟨_, rfl, ?_⟩
    split
    · obtain ⟨indent, indents, unrolled⟩ := unrollIndents_eq s s.column
      rw [unrolled]
      exact ⟨rfl, rfl⟩
    · exact ⟨rfl, rfl⟩
  rw [scanAtToken, run_bind, run_modify, isNext, ← peek, ← mark]
  rw [← peek] at content
  simp only [startsContent, Bool.not_eq_true', Bool.or_eq_false_iff, beq_eq_false_iff_ne] at content
  obtain ⟨⟨⟨⟨⟨⟨notNul, notDash⟩, notDot⟩, notPercent⟩, notFlow⟩, notQuestion⟩, notColon⟩ := content
  have byte := byte_of_peek rfl notNul
  have noStart : q.atDocIndicator dash = false := atDocIndicator_of_byte (byte ▸ notDash)
  have noEnd : q.atDocIndicator dot = false := atDocIndicator_of_byte (byte ▸ notDot)
  dsimp only
  rw [get_bind_eq]
  simp only [noStart, noEnd, beq_false_of_ne notPercent, notFlow, beq_false_of_ne notDash,
    beq_false_of_ne notQuestion, beq_false_of_ne notColon, Bool.false_and, Bool.false_eq_true,
    if_false]

/-- A double quote starts a double-quoted scalar. -/
theorem scanAtToken_double (isQuote : s.peek = dquote) :
    scanAtToken s = scanDoubleQuoted s.atScalar := by
  rw [scanAtToken_content (isQuote ▸ rfl), scanContent, run_bind, run_modify]
  change (get >>= _ : ScanM Token) s.atScalar = _
  rw [get_bind_eq, isQuote]
  rfl

/-- The state in which the scanner of the next token is called, if it is a scalar. -/
def Scanner.nextScalar (s : Scanner) : Scanner := (after skipBlanksAndComments s).atScalar

/-- A scalar token is read past the gap before it. -/
theorem scanToken_scalar (between : s.Between text) (isScalar : tok.type = .scalar)
    (ok : scanToken s = .ok tok s') :
    s.nextScalar.AtToken text ∧ ReadsScalar s.nextScalar tok s' := by
  rw [scanToken, get_bind_eq, between.pending] at ok
  dsimp only at ok
  split at ok
  · cases ok
    cases isScalar
  obtain ⟨_, q, skipped, rest⟩ := bind_eq_ok ok
  have gap := skipBlanksAndComments_gap between.reads skipped
  rw [Scanner.nextScalar, after_ok skipped]
  rw [get_bind_eq] at rest
  split at rest
  · split at rest
    · cases rest
      cases isScalar
    · cases rest
      cases isScalar
  · rename_i notEnded
    have atToken : q.AtToken text :=
      gap.last.resolve_left fun outside => notEnded (gap.moves.reads.atEnd_iff.mpr outside)
    exact ⟨atToken.atScalar, scanAtToken_scalar isScalar rest⟩

/-- Every token of a run is read by a step of the run. -/
theorem Scanned.step {allowed : Scanner → Prop} {toks : List Token}
    (run : Scanned text allowed toks s) :
    ∀ tok ∈ toks, ∃ before q q', Scanned text allowed before q ∧ scanToken q = .ok tok q' := by
  induction run with
  | new => exact fun _ member => nomatch member
  | @token before q q' tok earlier _ ok ih =>
      intro other member
      rcases List.mem_append.mp member with early | last
      · exact ih other early
      · rw [List.mem_singleton.mp last]
        exact ⟨before, q, q', earlier, ok⟩

end

end Oyl
