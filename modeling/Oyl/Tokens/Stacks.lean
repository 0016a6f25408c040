import Oyl.Logic.Triples
import Oyl.Tokens.Runs

/-!
# The scanner's stacks and errors

In every state of the scanner the indents increase from the outermost block on,
and the open brackets are those of the tokens.  A token that cannot be read
leaves a message and a place inside of the text.
-/

namespace Oyl

open StateError

/-- The brackets that are open after a token, each with the mark of its token. -/
def Token.brackets (tok : Token) (opened : List (Mark × Bool)) : List (Mark × Bool) :=
  match tok.type with
  | .flowSeqStart => (tok.start, false) :: opened
  | .flowMapStart => (tok.start, true) :: opened
  | .flowSeqEnd | .flowMapEnd => opened.tail
  | _ => opened

/-- The brackets that are open after these tokens. -/
def openBrackets (toks : List Token) : List (Mark × Bool) :=
  toks.foldl (fun opened tok => tok.brackets opened) []

/-- The indents increase from -1 on; they are listed from the innermost block. -/
def Indented : Int → List Int → Prop
  | indent, [] => indent = -1
  | indent, below :: indents => below < indent ∧ Indented below indents

/-- What holds of the scanner between any two of its steps. -/
structure Scanner.Sound (text : Bytes) (opened : List (Mark × Bool)) (s : Scanner) : Prop where
  reads : s.Reads text
  indented : Indented s.indent s.indents
  level : s.flowLevel = s.flows.length
  brackets : s.flows.map (fun flow => (flow.opening, flow.isMap)) = opened
  pending : s.pending = []

/-- The scanner reports an error. -/
structure ScanFails (text : Bytes) (opened : List (Mark × Bool)) (st : Status) (s : Scanner) :
    Prop where
  sound : s.Sound text opened
  status : st = .scan
  message : s.errorMsg ≠ ""
  inside : s.errorMark.offset ≤ text.length

section

variable {text : Bytes} {opened : List (Mark × Bool)} {s s' : Scanner} {α β : Type}

/-- What the stacks are. -/
def Scanner.piles (s : Scanner) : Int × List Int × Nat × List FlowOpen × List Token :=
  (s.indent, s.indents, s.flowLevel, s.flows, s.pending)

namespace Scanner.Sound

/-- Only the cursor and the notes change. -/
theorem moved (sound : s.Sound text opened) (reads : s'.Reads text)
    (same : s'.piles = s.piles) : s'.Sound text opened := by
  simp only [piles, Prod.mk.injEq] at same
  obtain ⟨indent, indents, level, flows, pending⟩ := same
  refine ⟨reads, ?_, ?_, ?_, pending.trans sound.pending⟩
  · rw [indent, indents]
    exact sound.indented
  · rw [level, flows]
    exact sound.level
  · rw [flows]
    exact sound.brackets

theorem noted (sound : s.Sound text opened) (buf : s'.buf = s.buf) (len : s'.len = s.len)
    (pos : s'.pos = s.pos) (same : s'.piles = s.piles) : s'.Sound text opened :=
  sound.moved (sound.reads.of_same buf len (pos ▸ sound.reads.inside)) same

theorem advanceCols (sound : s.Sound text opened) {n : Nat} (within : s.pos + n ≤ text.length) :
    (s.advanceCols n).Sound text opened :=
  sound.moved (sound.reads.advanceCols within) rfl

theorem run (sound : s.Sound text opened) (p : UInt8 → Bool) :
    (s.advanceCols (runLength p s.rest)).Sound text opened :=
  sound.advanceCols (sound.reads.run_within p)

/-- Past a closing quote. -/
theorem closingQuote (sound : s.Sound text opened) {n : Nat} (inside : s.pos + n < s.len) :
    (s.advanceCols (n + 1)).Sound text opened := by
  have len := sound.reads.len
  exact sound.advanceCols (by omega)

theorem advance (sound : s.Sound text opened) (n : Nat) : (s.advance n).Sound text opened := by
  induction n generalizing s with
  | zero => exact sound
  | succ n ih =>
      rw [Scanner.advance]
      split
      · rename_i inside
        have next : s.pos + 1 ≤ text.length := by
          have := sound.reads.len
          omega
        split
        · exact ih (sound.moved (sound.reads.of_same rfl rfl next) rfl)
        · exact ih (sound.moved (sound.reads.of_same rfl rfl next) rfl)
      · exact sound

theorem skipBreak (sound : s.Sound text opened) : s.skipBreak.Sound text opened := by
  rw [Scanner.skipBreak]
  split
  · exact sound
  rename_i notEnd
  have len := sound.reads.len
  split
  · split
    · rename_i followed
      have := of_decide_eq_true (Bool.and_eq_true_iff.mp followed).1
      exact sound.moved (sound.reads.of_same rfl rfl (by change s.pos + 2 ≤ _; omega)) rfl
    · exact sound.moved (sound.reads.of_same rfl rfl (by change s.pos + 1 ≤ _; omega)) rfl
  split
  · exact sound.moved (sound.reads.of_same rfl rfl (by change s.pos + 1 ≤ _; omega)) rfl
  · exact sound.noted rfl rfl rfl rfl

theorem skipBreakLines (sound : s.Sound text opened) (fuel count : Nat) :
    (s.skipBreakLines fuel count).1.Sound text opened := by
  induction fuel generalizing s count with
  | zero => exact sound
  | succ fuel ih =>
      rw [Scanner.skipBreakLines]
      split
      · exact sound
      · have next := sound.skipBreak.run isBlank
        dsimp only
        split
        · exact next
        · exact ih next _

theorem noteNode (sound : s.Sound text opened) (start : Mark) (stop : Nat) :
    (s.noteNode start stop).Sound text opened :=
  sound.noted rfl rfl rfl rfl

theorem noteProps (sound : s.Sound text opened) (start : Mark) (stop : Nat) :
    (s.noteProps start stop).Sound text opened :=
  sound.noted rfl rfl rfl rfl

end Scanner.Sound

/-! ### Rules -/

/-- The brackets that are open after a computation of the scanner are those that `next` says. -/
def ScanGives (text : Bytes) (opened : List (Mark × Bool)) (next : α → List (Mark × Bool))
    (x : ScanM α) : Prop :=
  Triple (Scanner.Sound text opened) x (fun a => Scanner.Sound text (next a))
    (ScanFails text opened)

/-- A computation of the scanner that leaves its brackets alone. -/
def ScanKeeps (text : Bytes) (opened : List (Mark × Bool)) (x : ScanM α) : Prop :=
  ScanGives text opened (fun _ => opened) x

/-- A function of the scanner that reads a token. -/
def ScanReads (text : Bytes) (opened : List (Mark × Bool)) (x : ScanM Token) : Prop :=
  ScanGives text opened (fun tok => tok.brackets opened) x

namespace ScanGives

variable {next : α → List (Mark × Bool)}

theorem pure {a : α} (same : next a = opened) :
    ScanGives text opened next (Pure.pure a : ScanM α) := by
  intro s sound
  change s.Sound text (next a)
  rw [same]
  exact sound

theorem bind {x : ScanM β} {f : β → ScanM α} (first : ScanKeeps text opened x)
    (rest : ∀ b, ScanGives text opened next (f b)) : ScanGives text opened next (x >>= f) :=
  Triple.bind first rest

theorem read {f : Scanner → ScanM α}
    (rest : ∀ s, s.Sound text opened → ScanGives text opened next (f s)) :
    ScanGives text opened next (get >>= f) :=
  fun s sound => rest s sound s sound

theorem put {f : PUnit → ScanM α} (sound : s.Sound text opened)
    (rest : ScanGives text opened next (f ⟨⟩)) : ScanGives text opened next (set s >>= f) :=
  fun _ _ => rest s sound

theorem update {u : Scanner → Scanner}
    (keeps : ∀ s, s.Sound text opened → (u s).Sound text opened) :
    ScanKeeps text opened (modify u : ScanM Unit) :=
  keeps

theorem error {msg : String} (known : msg ≠ "") :
    ScanGives text opened next (scanError msg : ScanM α) :=
  fun _ sound => ⟨sound.noted rfl rfl rfl rfl, rfl, known, sound.reads.inside⟩

theorem ite {c : Prop} [Decidable c] {x y : ScanM α} (left : ScanGives text opened next x)
    (right : ScanGives text opened next y) :
    ScanGives text opened next (if c then x else y) :=
  Triple.ite (fun _ => left) fun _ => right

/-- A check, and what follows it. -/
theorem guard {c : Prop} [Decidable c] {msg : String} {y : ScanM α} (known : msg ≠ "")
    (rest : ScanGives text opened next y) :
    ScanGives text opened next (if c then scanError msg >>= fun _ : PUnit => y else y) :=
  ite (bind (error known) fun _ => rest) rest

end ScanGives

/-! ### Scalars -/

theorem plainLoop_keeps (fuel : Nat) (out : Bytes) :
    ScanKeeps text opened (plainLoop fuel out) := by
  induction fuel generalizing out with
  | zero => exact .pure rfl
  | succ fuel ih =>
      refine .read fun s sound => .put (sound.run _) ?_
      have here : (s.advanceCols (plainRun s.rest)).Sound text opened := sound.run _
      refine .ite (.pure rfl) (.ite (.ite (.put (here.advance 1) (ih _)) (.pure rfl)) ?_)
      refine .ite (.ite (.pure rfl) (.ite (.pure rfl) (.put (here.advance 1) (ih _)))) ?_
      refine .ite (.pure rfl) (.ite ?_ (.ite ?_ ?_))
      · exact .put (here.run isBlank) (.ite (.pure rfl) (.ite (ih _) (ih _)))
      · have crossed := here.skipBreakLines (s.advanceCols (plainRun s.rest)).remaining 0
        generalize Scanner.skipBreakLines _ _ _ = lines at crossed ⊢
        exact .ite (.pure rfl) (.put crossed (ih _))
      · exact .ite (.error (by decide)) (.put (here.advance 1) (ih _))

theorem scanPlainScalar_reads : ScanReads text opened scanPlainScalar :=
  .read fun _ _ => .read fun _ _ => .bind (plainLoop_keeps _ _) fun _ =>
    .read fun _ sound => .put (sound.noteNode _ _) (.pure rfl)

theorem finishQuoted_reads (style : ScalarStyle) (start : Mark) (value : Bytes) :
    ScanReads text opened (finishQuoted style start value) :=
  .bind (.update fun _ sound => sound.noted rfl rfl rfl rfl) fun _ =>
    .bind (.update fun _ sound => sound.noteNode _ _) fun _ => .read fun _ _ => .pure rfl

theorem quotedBreak_keeps (closer : UInt8) {marker : String} (known : marker ≠ "") :
    ScanKeeps text opened (quotedBreak closer marker) := by
  refine .read fun s sound => ?_
  have crossed := sound.skipBreakLines s.remaining 0
  generalize Scanner.skipBreakLines _ _ _ = lines at crossed ⊢
  exact .put crossed (.guard known (.guard (by decide) (.pure rfl)))

theorem singleQuotedLoop_keeps (fuel : Nat) (out : Bytes) :
    ScanKeeps text opened (singleQuotedLoop fuel out) := by
  induction fuel generalizing out with
  | zero => exact .pure rfl
  | succ fuel ih =>
      refine .read fun s sound => .ite (.pure rfl) (.ite ?_ (.ite ?_ ?_))
      · exact .ite (.put (sound.advance 2) (ih _)) (.pure rfl)
      · exact .bind (quotedBreak_keeps _ (by decide)) fun _ => ih _
      · exact .put (sound.run _) (ih _)

theorem scanSingleQuoted_reads : ScanReads text opened scanSingleQuoted := by
  refine .read fun _ _ => .bind (.update fun _ sound => sound.advance 1) fun _ =>
    .read fun s sound => ?_
  dsimp only
  split
  · rename_i closed
    have inside := of_decide_eq_true
      (Bool.and_eq_true_iff.mp (Bool.and_eq_true_iff.mp closed).1).1
    exact .put (sound.closingQuote inside) (finishQuoted_reads _ _ _)
  · exact .bind (singleQuotedLoop_keeps _ _) fun _ => .read fun _ _ => .guard (by decide)
      (.bind (.update fun _ sound => sound.advance 1) fun _ => finishQuoted_reads _ _ _)

theorem unicodeEscape_keeps (ndigits : Nat) : ScanKeeps text opened (unicodeEscape ndigits) :=
  .read fun _ sound => .guard (by decide) (.guard (by decide)
    (.put (sound.advance ndigits) (.guard (by decide) (.guard (by decide) (.pure rfl)))))

theorem doubleQuotedLoop_keeps (fuel : Nat) (out : Bytes) (contentEnd : Nat) :
    ScanKeeps text opened (doubleQuotedLoop fuel out contentEnd) := by
  induction fuel generalizing out contentEnd with
  | zero => exact .pure rfl
  | succ fuel ih =>
      refine .read fun s sound => .ite (.pure rfl) (.ite ?_ (.ite ?_ ?_))
      · refine .put (sound.advance 1) (.guard (by decide) (.put ((sound.advance 1).advance 1) ?_))
        have after := (sound.advance 1).advance 1
        refine .ite ?_ ?_
        · have crossed {q : Scanner} (here : q.Sound text opened) : ScanKeeps text opened (do
              let s := q.advanceCols (skipBlanks q.rest)
              set s
              if !s.atEnd && !isBreak s.peek && !s.continuationIndentOk dquote then
                scanError "continuation line of a quoted scalar must be indented"
              doubleQuotedLoop fuel out out.length) :=
            .put (here.run isBlank) (.guard (by decide) (ih _ _))
          dsimp only
          split
          · exact crossed (after.advance 1)
          · exact crossed after
        · have decoded {x : ScanM Bytes} (keeps : ScanKeeps text opened x) :
              ScanKeeps text opened (do
                let bytes ← x
                doubleQuotedLoop fuel (out ++ bytes) (out ++ bytes).length) :=
            .bind keeps fun _ => ih _ _
          dsimp only
          split
          · exact decoded (.pure rfl)
          · exact .ite (.guard (by decide) (.guard (by decide)
              (.put (after.advance 2) (decoded (.pure rfl)))))
              (.ite (decoded (unicodeEscape_keeps 4)) (.ite (decoded (unicodeEscape_keeps 8))
                (decoded (.error (by decide)))))
      · exact .bind (quotedBreak_keeps _ (by decide)) fun _ => ih _ _
      · exact .put (sound.run _) (ih _ _)

theorem scanDoubleQuoted_reads : ScanReads text opened scanDoubleQuoted := by
  refine .read fun _ _ => .bind (.update fun _ sound => sound.advance 1) fun _ =>
    .read fun s sound => ?_
  dsimp only
  split
  · rename_i closed
    have inside := of_decide_eq_true (Bool.and_eq_true_iff.mp closed).1
    exact .put (sound.closingQuote inside) (finishQuoted_reads _ _ _)
  · exact .bind (doubleQuotedLoop_keeps _ _ _) fun _ => .read fun _ _ => .guard (by decide)
      (.bind (.update fun _ sound => sound.advance 1) fun _ => finishQuoted_reads _ _ _)

/-! ### Tags and names -/

theorem scanNameLoop_keeps (stops : UInt8 → Bool) {msg : String} (known : msg ≠ "")
    (fuel : Nat) : ScanKeeps text opened (scanNameLoop stops msg fuel) := by
  induction fuel with
  | zero => exact .pure rfl
  | succ fuel ih =>
      exact .read fun s sound => .ite (.pure rfl) (.guard known (.put (sound.advance 1) ih))

theorem finishName_reads {type : TokenType} (start : Mark) (valueStart : Nat)
    (known : type = .tag ∨ type = .anchor ∨ type = .alias) :
    ScanReads text opened (finishName type start valueStart) := by
  refine .read fun s sound => .put ?_ (.pure ?_)
  · split
    · exact sound.noteNode _ _
    · exact sound.noteProps _ _
  · rcases known with rfl | rfl | rfl <;> rfl

theorem scanTag_reads : ScanReads text opened scanTag := by
  refine .read fun first _ => .bind (.update fun _ sound => sound.advance 1) fun _ =>
    .read fun s sound => .ite ?_ ?_
  · exact .put (sound.advance 1) (.bind (scanNameLoop_keeps _ (by decide) _) fun _ =>
      .read fun next here => .guard (by decide) (.put (here.advance 1) (finishName_reads _ _ (.inl rfl))))
  · have rest : ScanReads text opened (do
        scanNameLoop (fun c => isBlankOrBreak c || isFlow c) "control character in tag"
          s.remaining
        finishName .tag first.mark first.mark.offset) :=
      .bind (scanNameLoop_keeps _ (by decide) _) fun _ => finishName_reads _ _ (.inl rfl)
    exact .ite (.put (sound.advance 1) rest) rest

theorem scanAnchorOrAlias_reads : ScanReads text opened scanAnchorOrAlias := by
  have name (isAnchor : Bool) :
      (if isAnchor then TokenType.anchor else .alias) = .tag ∨
        (if isAnchor then TokenType.anchor else .alias) = .anchor ∨
        (if isAnchor then TokenType.anchor else .alias) = .alias := by
    cases isAnchor
    · exact .inr (.inr rfl)
    · exact .inr (.inl rfl)
  exact .read fun _ _ => .read fun _ _ => .bind (.update fun _ sound => sound.advance 1) fun _ =>
    .read fun _ _ => .read fun _ _ => .bind (scanNameLoop_keeps _ (by decide) _) fun _ =>
      .read fun _ _ => .guard (by decide) (finishName_reads _ _ (name _))

/-! ### Block scalars -/

theorem Scanner.Sound.blockHeader (sound : s.Sound text opened) (n : Nat) (chomp : Chomp)
    (explicitIndent : Nat) : (s.blockHeader n chomp explicitIndent).1.Sound text opened := by
  induction n generalizing s chomp explicitIndent with
  | zero => exact sound
  | succ n ih =>
      rw [Scanner.blockHeader]
      split
      · exact sound
      split
      · exact ih (sound.advance 1) _ _
      split
      · exact ih (sound.advance 1) _ _
      split
      · exact ih (sound.advance 1) _ _
      · exact sound

/-- A break that the copying pass crosses. -/
theorem Scanner.Sound.crossBreak (sound : s.Sound text opened) :
    (if !s.atEnd && isBreak s.peek then s.skipBreak else s).Sound text opened := by
  split
  · exact sound.skipBreak
  · exact sound

theorem Scanner.Sound.copyBlock (sound : s.Sound text opened) (base endPos fuel : Nat)
    (out : Bytes) (lines : List BlockLine) :
    (Scanner.copyBlock base endPos fuel s out lines).1.Sound text opened := by
  induction fuel generalizing s out lines with
  | zero => exact sound
  | succ fuel ih =>
      rw [Scanner.copyBlock]
      have indented : (s.advanceCols (s.spacesAt s.pos)).Sound text opened :=
        sound.run (· == space)
      dsimp only
      split
      · exact sound
      split
      · exact ih indented.crossBreak _ _
      rename_i notBlank
      split
      · exact sound
      rename_i notShallow
      have deep : base ≤ s.spacesAt s.pos := by
        revert notBlank notShallow
        generalize (decide (endPos ≤ s.pos + s.spacesAt s.pos) || _) = isBlankLine
        cases isBlankLine <;> simp
        omega
      have within : base + (s.spacesAt s.pos - base) = s.spacesAt s.pos := by omega
      have content : ((s.advanceCols base).advanceCols (s.spacesAt s.pos - base)).Sound text
          opened := by
        rw [← within] at indented
        refine indented.noted rfl rfl ?_ rfl
        simp only [Scanner.advanceCols]
        omega
      exact ih (content.run fun c => !isBreak c).crossBreak _ _

theorem scanBlockScalar_reads (start : Mark) : ScanReads text opened (scanBlockScalar start) := by
  refine .read fun s sound => .read fun q here => ?_
  have header := (here.advance 1).blockHeader 2 .clip 0
  generalize Scanner.blockHeader _ _ _ _ = parsed at header ⊢
  obtain ⟨q, chomp, explicitIndent⟩ := parsed
  have blanks : (q.advanceCols (skipBlanks q.rest)).Sound text opened := header.run isBlank
  have comment : (if !(q.advanceCols (skipBlanks q.rest)).atEnd &&
      (q.advanceCols (skipBlanks q.rest)).peek == hash then
        (q.advanceCols (skipBlanks q.rest)).advanceCols
          (scanToBreak (q.advanceCols (skipBlanks q.rest)).rest)
      else q.advanceCols (skipBlanks q.rest)).Sound text opened := by
    split
    · exact blanks.run fun c => !isBreak c
    · exact blanks
  refine .put blanks (.guard (by decide) (.put comment (.guard (by decide)
    (.put comment.skipBreak ?_))))
  have ended := comment.skipBreak
  generalize Scanner.skipBreak _ = t at ended ⊢
  dsimp only
  refine .ite (.bind (.pure rfl) fun base => ?_) ?_
  rotate_left
  · split
    · refine .ite (.bind (.error (by decide)) fun base => ?_) (.bind (.pure rfl) fun base => ?_)
      all_goals
        split
        · exact .error (by decide)
        · exact .put (ended.copyBlock _ _ _ _ _) (.pure rfl)
    · refine .bind (.pure rfl) fun base => ?_
      split
      · exact .error (by decide)
      · exact .put (ended.copyBlock _ _ _ _ _) (.pure rfl)
  · split
    · exact .error (by decide)
    · exact .put (ended.copyBlock _ _ _ _ _) (.pure rfl)

/-! ### Indicators -/

theorem Scanner.Sound.unrollIndents (sound : s.Sound text opened) (col : Int) :
    (s.unrollIndents col).Sound text opened := by
  have unrolled (indent : Int) (indents : List Int) (indented : Indented indent indents) :
      (Scanner.unrollIndents.go s col indent indents).Sound text opened := by
    induction indents generalizing indent with
    | nil => exact ⟨sound.reads.of_same rfl rfl sound.reads.inside, indented, sound.level,
        sound.brackets, sound.pending⟩
    | cons below indents ih =>
        rw [Scanner.unrollIndents.go]
        split
        · exact ih below indented.2
        · exact ⟨sound.reads.of_same rfl rfl sound.reads.inside, indented, sound.level,
            sound.brackets, sound.pending⟩
  exact unrolled s.indent s.indents sound.indented

/-- Unrolling ends before the stack is empty. -/
theorem Scanner.Sound.unrollIndents_le (sound : s.Sound text opened) {col : Int}
    (inside : -1 ≤ col) : (s.unrollIndents col).indent ≤ col := by
  have unrolled (indent : Int) (indents : List Int) (indented : Indented indent indents) :
      (Scanner.unrollIndents.go s col indent indents).indent ≤ col := by
    induction indents generalizing indent with
    | nil => exact Int.le_trans (Int.le_of_eq indented) inside
    | cons below indents ih =>
        rw [Scanner.unrollIndents.go]
        split
        · exact ih below indented.2
        · rename_i within
          exact Int.not_lt.mp within
  exact unrolled s.indent s.indents sound.indented

theorem Scanner.Sound.indentPush (sound : s.Sound text opened) {col : Int}
    (deeper : col > s.indent) : (s.indentPush col).Sound text opened :=
  ⟨sound.reads.of_same rfl rfl sound.reads.inside, ⟨deeper, sound.indented⟩, sound.level,
    sound.brackets, sound.pending⟩

theorem Scanner.Sound.classifyColon (sound : s.Sound text opened) :
    s.classifyColon.2.Sound text opened := by
  rw [Scanner.classifyColon]
  split
  · exact sound.noted rfl rfl rfl rfl
  split
  · exact sound.noted rfl rfl rfl rfl
  split
  · exact sound
  split
  · split <;> exact sound
  · exact sound

/-- A token that opens or closes no bracket. -/
theorem indicatorToken_reads {type : TokenType} (start : Mark)
    (plain : ∀ start stop, (tokSimple type start stop).brackets opened = opened) :
    ScanReads text opened (indicatorToken type start) :=
  .bind (.update fun _ sound => sound.advance 1) fun _ => .read fun _ _ => .pure (plain _ _)

/-- The bracket that was opened last is closed. -/
theorem Scanner.Sound.flowPop (sound : s.Sound text opened) {s' : Scanner} {opening : Mark}
    (popped : s.flowPop = (opening, s')) :
    Scanner.Sound text opened.tail { s' with flowLevel := s'.flowLevel - 1 } := by
  have brackets := sound.brackets
  have level := sound.level
  rw [Scanner.flowPop] at popped
  cases flows : s.flows with
  | nil =>
      rw [flows] at popped brackets level
      cases popped
      refine ⟨sound.reads.of_same rfl rfl sound.reads.inside, sound.indented, ?_, ?_, sound.pending⟩
      · rw [flows, level]
        rfl
      · rw [flows, ← brackets]
        rfl
  | cons top below =>
      rw [flows] at popped brackets level
      have closed (t : Scanner) (kept : t.buf = s.buf ∧ t.len = s.len ∧ t.pos = s.pos ∧
          t.piles = (s.indent, s.indents, s.flowLevel, below, s.pending)) :
          Scanner.Sound text opened.tail { t with flowLevel := t.flowLevel - 1 } := by
        obtain ⟨buf, len, pos, piles⟩ := kept
        simp only [Scanner.piles, Prod.mk.injEq] at piles
        obtain ⟨indent, indents, flowLevel, flows, pending⟩ := piles
        have reads : t.Reads text := sound.reads.of_same buf len (pos ▸ sound.reads.inside)
        refine ⟨reads.of_same rfl rfl reads.inside, ?_, ?_, ?_, pending.trans sound.pending⟩
        · change Indented t.indent t.indents
          rw [indent, indents]
          exact sound.indented
        · change t.flowLevel - 1 = t.flows.length
          rw [flowLevel, flows, level, List.length_cons, Nat.add_sub_cancel]
        · change t.flows.map _ = _
          rw [flows, ← brackets]
          rfl
      dsimp only at popped
      split at popped
      · cases popped
        refine closed _ ?_
        split <;> exact ⟨rfl, rfl, rfl, rfl⟩
      · cases popped
        refine closed _ ?_
        split <;> exact ⟨rfl, rfl, rfl, rfl⟩

theorem scanFlowIndicator_reads (c : UInt8) (sound : s.Sound text opened) :
    Meets (fun tok => Scanner.Sound text (tok.brackets opened)) (ScanFails text opened)
      (scanFlowIndicator c s.mark s) := by
  rw [scanFlowIndicator]
  split
  · have pushed : Scanner.Sound text ((s.mark, c == lbrace) :: opened)
        { Scanner.flowPush { s with lastWasQuoted := false } (c == lbrace) with
          flowLevel := s.flowLevel + 1 } :=
      ⟨sound.reads.of_same rfl rfl sound.reads.inside, sound.indented,
        congrArg (· + 1) sound.level, congrArg (_ :: ·) sound.brackets, sound.pending⟩
    have next := pushed.advance 1
    change Scanner.Sound text (Token.brackets (tokSimple (if c == lbrace then .flowMapStart
      else .flowSeqStart) s.mark _) opened) _
    cases isMap : c == lbrace <;> rw [isMap] at next <;> exact next
  split
  · cases popped : s.flowPop with
    | mk opening q =>
        have next := (sound.flowPop popped).advance 1
        simp only [get_bind_eq, popped]
        change Scanner.Sound text (Token.brackets (tokSimple (if c == rbrace then .flowMapEnd
          else .flowSeqEnd) s.mark _) opened) _
        cases c == rbrace <;> exact next.noted rfl rfl rfl rfl
  · have plain : ScanReads text opened (do
        modify fun s => { s with lastWasQuoted := false }
        modify fun s => if s.explicitKey && s.explicitDepth == s.flows.length then
          { s with explicitKey := false } else s
        indicatorToken .flowEntry s.mark) := by
      refine .bind (.update fun _ sound => sound.noted rfl rfl rfl rfl) fun _ =>
        .bind (.update fun t sound => ?_) fun _ => indicatorToken_reads _ fun _ _ => rfl
      split
      · exact sound.noted rfl rfl rfl rfl
      · exact sound
    exact plain s sound

theorem blockIndicator_reads {type : TokenType} (start : Mark) (col : Int)
    (plain : ∀ start stop, (tokSimple type start stop).brackets opened = opened) :
    ScanReads text opened (blockIndicator type start col) := by
  refine .bind (.update fun s sound => ?_) fun _ => .bind (.update fun _ sound => sound.advance 1)
    fun _ => .bind (.update fun _ sound => sound.noted rfl rfl rfl rfl) fun _ =>
      .read fun _ _ => .pure (plain _ _)
  split
  · exact sound.indentPush ‹_›
  · exact sound

theorem scanSeqEntry_reads (start : Mark) : ScanReads text opened (scanSeqEntry start) :=
  .read fun _ _ => .guard (by decide) (.guard (by decide)
    (blockIndicator_reads _ _ fun _ _ => rfl))

theorem scanKeyIndicator_reads (start : Mark) : ScanReads text opened (scanKeyIndicator start) := by
  refine .read fun s _ => .ite (.guard (by decide) (.guard (by decide) ?_)) ?_
  · exact Triple.bind (blockIndicator_reads _ _ fun _ _ => rfl) fun _ _ sound =>
      sound.noted rfl rfl rfl rfl
  · exact .bind (.update fun _ sound => sound.noted rfl rfl rfl rfl) fun _ =>
      indicatorToken_reads _ fun _ _ => rfl

theorem scanBlockValue_reads (start : Mark) : ScanReads text opened (scanBlockValue start) := by
  refine .read fun s sound => .put sound.classifyColon (.guard (by decide) (.ite ?_ ?_))
  · exact .guard (by decide) (.guard (by decide) (.put (sound.classifyColon.noted rfl rfl rfl rfl)
      (blockIndicator_reads _ _ fun _ _ => rfl)))
  · exact blockIndicator_reads _ _ fun _ _ => rfl

theorem scanFlowValue_reads (start : Mark) : ScanReads text opened (scanFlowValue start) :=
  .bind (.update fun _ sound => sound.noted rfl rfl rfl rfl) fun _ => .read fun _ sound =>
    .put sound.classifyColon (.guard (by decide) (indicatorToken_reads _ fun _ _ => rfl))

theorem scanContent_reads (c : UInt8) (start : Mark) :
    ScanReads text opened (scanContent c start) := by
  refine .bind (.update fun _ sound => sound.noted rfl rfl rfl rfl) fun _ => .read fun s _ => ?_
  exact .ite scanTag_reads (.ite scanAnchorOrAlias_reads (.ite scanSingleQuoted_reads
    (.ite scanDoubleQuoted_reads (.ite (scanBlockScalar_reads _)
      (.guard (by decide) scanPlainScalar_reads)))))

theorem scanDocMarker_reads {type : TokenType} (start : Mark)
    (plain : ∀ start stop, (tokSimple type start stop).brackets opened = opened) :
    ScanReads text opened (scanDocMarker type start) := by
  refine .bind (.update fun _ sound => (sound.unrollIndents _).advance 3) fun _ =>
    .read fun s _ => ?_
  exact .ite (.guard (by decide) (.pure (plain _ _))) (.pure (plain _ _))

theorem scanDirective_reads (start : Mark) : ScanReads text opened (scanDirective start) :=
  .read fun _ sound => .put (sound.run _) (.pure rfl)

theorem scanAtToken_reads : ScanReads text opened scanAtToken := by
  refine .bind (.update fun s sound => ?_) fun _ => Triple.getBind fun s sound => ?_
  · split
    · exact sound.unrollIndents _
    · exact sound
  have known {x : ScanM Token} (reads : ScanReads text opened x) :
      Triple (fun t => t = s) x (fun tok => Scanner.Sound text (tok.brackets opened))
        (ScanFails text opened) :=
    reads.requires fun _ same => same ▸ sound
  refine .ite (fun _ => known (scanDocMarker_reads _ fun _ _ => rfl)) fun _ => ?_
  refine .ite (fun _ => known (scanDocMarker_reads _ fun _ _ => rfl)) fun _ => ?_
  refine .ite (fun _ => known (scanDirective_reads _)) fun _ => .ite (fun _ => ?_) fun _ => ?_
  · intro t same
    subst same
    exact scanFlowIndicator_reads _ sound
  refine .ite (fun _ => known (scanSeqEntry_reads _)) fun _ => ?_
  refine .ite (fun _ => known (scanKeyIndicator_reads _)) fun _ => ?_
  refine .ite (fun _ => known (scanBlockValue_reads _)) fun _ => ?_
  exact .ite (fun _ => known (scanFlowValue_reads _)) fun _ => known (scanContent_reads _ _)

/-! ### Whitespace and comments -/

theorem skipBlankLines_keeps (fuel : Nat) (lineStart : Option Nat) :
    ScanKeeps text opened (skipBlankLines lineStart fuel) := by
  induction fuel generalizing lineStart with
  | zero => exact .pure rfl
  | succ fuel ih =>
      refine .read fun s sound => .put (sound.run isBlank) (.guard (by decide) ?_)
      have blanks := sound.run isBlank
      have comment : (if (s.advanceCols (skipBlanks s.rest)).peek == hash then
          (s.advanceCols (skipBlanks s.rest)).advanceCols
            (scanToBreak (s.advanceCols (skipBlanks s.rest)).rest)
          else s.advanceCols (skipBlanks s.rest)).Sound text opened := by
        split
        · exact blanks.run fun c => !isBreak c
        · exact blanks
      exact .put comment (.ite (.put comment.skipBreak (ih _)) (.pure rfl))

theorem skipBlanksAndComments_keeps : ScanKeeps text opened skipBlanksAndComments := by
  refine .read fun s _ => .bind (skipBlankLines_keeps _ _) fun lineStart => .read fun q _ => ?_
  cases lineStart with
  | none => exact .pure rfl
  | some lineStart =>
      exact .ite (.pure rfl) (.guard (by decide) (.ite (.error (by decide)) (.pure rfl)))

/-- A token, or an error. -/
theorem scanToken_reads : ScanReads text opened scanToken := by
  refine Triple.getBind fun s sound => ?_
  have known {x : ScanM Token} (reads : ScanReads text opened x) :
      Triple (fun t => t = s) x (fun tok => Scanner.Sound text (tok.brackets opened))
        (ScanFails text opened) :=
    reads.requires fun _ same => same ▸ sound
  rw [sound.pending]
  have started : ({ s with streamStarted := true } : Scanner).Sound text opened :=
    sound.noted rfl rfl rfl rfl
  rw [sound.pending] at started
  refine .ite (fun _ => known (.put started (.pure rfl))) fun _ =>
    known (.bind skipBlanksAndComments_keeps fun _ => .read fun q here => .ite ?_ scanAtToken_reads)
  have ended : ({ q with streamEnded := true } : Scanner).Sound text opened :=
    here.noted rfl rfl rfl rfl
  exact .ite (.put (ended.unrollIndents (-1)) (.pure rfl)) (.pure rfl)

/-- A token starts inside of the text. -/
theorem Scanner.Sound.token_inside {tok : Token} (sound : s.Sound text opened)
    (ok : scanToken s = .ok tok s') : tok.start.offset ≤ text.length := by
  have reads := sound.reads
  cases scanToken_reading reads sound.pending ok with
  | streamStart _ isToken _ =>
      rw [isToken]
      exact reads.inside
  | atEnd _ gap _ isToken _ =>
      rw [isToken]
      exact gap.moves.reads.inside
  | token _ gap atToken read =>
      rw [(scanAtToken_at atToken read).1.spans.start]
      exact gap.moves.reads.inside

theorem Scanner.new_sound (text : Bytes) : (Scanner.new text).Sound text [] :=
  ⟨(Scanner.new_between text).reads, rfl, rfl, rfl, rfl⟩

theorem openBrackets_append (toks : List Token) (tok : Token) :
    openBrackets (toks ++ [tok]) = tok.brackets (openBrackets toks) := by
  simp [openBrackets]

/-- The stacks after a run. -/
theorem Scanned.sound {allowed : Scanner → Prop} {toks : List Token}
    (run : Scanned text allowed toks s) : s.Sound text (openBrackets toks) := by
  induction run with
  | new => exact Scanner.new_sound text
  | token run _ ok ih =>
      rw [openBrackets_append]
      have next := Triple.ok scanToken_reads ih ok
      exact next

end

/-- Between any two tokens the indents of the scanner increase from -1 on, its flow level is
the number of brackets that its tokens have opened, and its stack holds their marks; a token
that cannot be read leaves that so, with a message and a place inside of the text. -/
theorem scanned_stacks {text : Bytes} {toks : List Token} {s : Scanner}
    (run : Scanned text (fun _ => True) toks s) :
    s.Sound text (openBrackets toks) ∧
      ∀ st s', scanToken s = .error st s' → ScanFails text (openBrackets toks) st s' :=
  ⟨run.sound, fun _ _ stops => Triple.error scanToken_reads run.sound stops⟩

/-- `"a:\n - [{b"` -/
def nestedText : Bytes := [97, 58, 10, 32, 45, 32, 91, 123, 98]

theorem scanned_stacks_nested :
    ∃ toks s, Scanned nestedText (fun _ => True) toks s ∧ s.flowLevel = 2 ∧
      Indented s.indent s.indents := by
  obtain ⟨toks, s, run, opened⟩ := exists_scanned nestedText (fun _ => True) 6
    (fun toks => (openBrackets toks).length = 2) (by decide +kernel)
  have sound := (scanned_stacks run).1
  refine ⟨toks, s, run, ?_, sound.indented⟩
  rw [sound.level, ← opened, ← sound.brackets, List.length_map]

end Oyl
