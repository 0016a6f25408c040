import Oyl.Parser.Eager

/-!
# The eager parser: documents

Directives, one document, and the loop over the documents of a stream, which
adds one document to the event list at a time.
-/

namespace Oyl

/-- `directive_word`: the next word of a directive line and what follows it. -/
def directiveWord (line : Bytes) : Option (Bytes × Bytes) :=
  let blanks := runLength isBlank line
  match line.drop blanks with
  | [] => none
  | c :: rest =>
      if blanks > 0 && c == hash then none
      else some ((c :: rest).span fun b => !isBlank b)

/-- A version `digits.digits`. -/
def isVersion (word : Bytes) : Bool :=
  let major := runLength isDigit word
  let minor := word.drop (major + 1)
  major > 0 && word[major]? == some dot && !minor.isEmpty && minor.all isDigit

/-- A handle `!`, `!!` or `!word!`. -/
def isTagHandle (word : Bytes) : Bool :=
  let isWordChar (c : UInt8) :=
    isDigit c || (0x61 ≤ c && c ≤ 0x7A) || (0x41 ≤ c && c ≤ 0x5A) || c == dash
  word.head? == some bang && word.getLast? == some bang &&
    (word.drop 1).dropLast.all isWordChar

/-- Declare a tag handle, or declare it again. -/
def declareTag (directives : List TagDirective) (tag : TagDirective) :
    List TagDirective :=
  match directives.findIdx? (·.handle == tag.handle) with
  | some idx => directives.set idx tag
  | none => directives ++ [tag]

def parseYamlDirective (rest : Bytes) (hadYaml : Bool) : ParseM Bool := do
  if hadYaml then parseError "duplicate %YAML directive"
  match directiveWord rest with
  | none => parseError "%YAML directive requires a version"
  | some (version, rest) =>
      if !isVersion version then parseError "invalid %YAML version"
      else if (directiveWord rest).isSome then
        parseError "unexpected text after %YAML version"
      else return true

def parseTagDirective (rest : Bytes) : ParseM Unit := do
  match directiveWord rest with
  | none => parseError "%TAG directive requires a handle and a prefix"
  | some (handle, rest) =>
      match directiveWord rest with
      | none => parseError "%TAG directive requires a handle and a prefix"
      | some (expansion, rest) =>
          let known := (← get).tagDirectives
          if (directiveWord rest).isSome then
            parseError "unexpected text after %TAG prefix"
          else if !isTagHandle handle then parseError "invalid %TAG handle"
          else if handle.length ≥ 16 || expansion.length ≥ 256 then
            parseError "%TAG handle or prefix too long"
          else if !known.any (·.handle == handle) && known.length ≥ 8 then
            parseError "too many %TAG directives"
          else
            modify fun p =>
              { p with tagDirectives := declareTag known ⟨handle, expansion⟩ }

/-- `parse_directive`; the result says whether a `%YAML` directive was seen. -/
def parseDirective (hadYaml : Bool) : ParseM Bool := do
  let line := (← get).current.value
  match directiveWord (line.drop 1) with
  | none => parseError "invalid directive"
  | some (name, rest) =>
      if runLength isBlank (line.drop 1) > 0 then parseError "invalid directive"
      else if line.any fun c => (c < 0x20 && c != tab) || c == del then
        parseError "control character in directive"
      else if name == ascii "YAML" then parseYamlDirective rest hadYaml
      else if name == ascii "TAG" then
        parseTagDirective rest
        return hadYaml
      else return hadYaml

/-- The directives before a document; the result says whether there was one. -/
def parseDirectives (r : Eager) (hadDirective hadYaml : Bool) : ParseM Bool := do
  let p ← get
  if p.tokType != .directive then return hadDirective
  else if p.docOpen then
    parseError "directive requires a preceding document end marker '...'"
  else
    let hadYaml ← parseDirective hadYaml
    consumeToken
    peekToken
    r.directives true hadYaml

/-- `eager n`: the functions of the eager parser, for at most `n` nested calls
and loop rounds. -/
def eager : Nat → Eager
  | 0 =>
      { flowSequence := throw .fuel
        flowMapping := throw .fuel
        flowNode := throw .fuel
        blockMapValue := fun _ => throw .fuel
        blockMapping := fun _ => throw .fuel
        blockSequence := fun _ => throw .fuel
        blockNode := throw .fuel
        directives := fun _ _ => throw .fuel }
  | n + 1 =>
      { flowSequence := parseFlowSequence (eager n)
        flowMapping := parseFlowMapping (eager n)
        flowNode := parseFlowNode (eager n)
        blockMapValue := parseBlockMapValue (eager n)
        blockMapping := parseBlockMapping (eager n)
        blockSequence := parseBlockSequence (eager n)
        blockNode := parseBlockNode (eager n)
        directives := parseDirectives (eager n) }

/-- `expect_document_end`: only a document boundary follows a root node. -/
def expectDocumentEnd : ParseM Unit := do
  let tt ← peekType
  if !tt.endsDocument && tt != .none then
    parseError "unexpected content after document root node"

/-- Close the open document, if there is one, where the current token starts;
a `...` closes it explicitly. -/
def closeDocument (explicit : Bool) : ParseM Unit := do
  let p ← get
  if p.docOpen then
    unrollAll p.current.start p.contexts.length
    enqueue' {
      type := .docEnd
      implicit := !explicit
      start := p.current.start
      stop := if explicit then p.current.stop else p.current.start }
    modify fun p => { p with docOpen := false }

/-- A document that starts with `---`. -/
def parseExplicitDocument (r : Eager) : ParseM Unit := do
  closeDocument false
  let p ← get
  set { p with docStartLine := p.current.start.line, haveToken := false }
  enqueue' (p.tokenEvent .docStart)
  modify fun p => { p with docOpen := true }
  let tt ← peekType
  if tt == .directive then
    parseError "directive requires a preceding document end marker '...'"
  else if tt.endsDocument then emitEmpty
  else
    r.blockNode
    expectDocumentEnd

def parseImplicitDocument (r : Eager) : ParseM Unit := do
  let p ← get
  if !p.docOpen then
    set { p with docStartLine := 0 }
    ensureDoc false p.current.start
  r.blockNode
  expectDocumentEnd

/-- `parse_document`. -/
def parseDocument (r : Eager) : ParseM Unit := do
  checkOom
  let tt ← peekType
  if tt != .docEnd && tt != .streamEnd then
    modify fun p => { p with tagDirectives := [] }
  let hadDirective ← r.directives false false
  let tt := (← get).tokType
  if hadDirective && tt != .docStart then
    parseError "directives must be followed by a document start marker '---'"
  else
    match tt with
    | .docStart => parseExplicitDocument r
    | .docEnd =>
        closeDocument true
        consumeToken
    | .streamEnd => return ()
    | .flowSeqEnd | .flowMapEnd | .flowEntry =>
        parseError "unexpected flow indicator outside a flow collection"
    | _ => parseImplicitDocument r

def startStream : ParseM Unit := do
  if !(← get).streamStarted then
    peekToken
    consumeToken
    enqueue' ((← get).tokenEvent .streamStart)
    modify fun p => { p with streamStarted := true }

def endStream : ParseM Unit := do
  closeDocument false
  consumeToken
  enqueue' ((← get).tokenEvent .streamEnd)
  modify fun p => { p with streamEnded := true }

/-- `parse_stream`: the next document of the stream. -/
def parseStream (r : Eager) : ParseM Unit := do
  startStream
  let tt ← peekType
  if tt == .streamEnd || tt == .none then
    endStream
    checkOom
  else
    -- a document that consumes nothing would be parsed again for ever
    let before ← get
    parseDocument r
    let p ← get
    if p.haveToken && p.current.start.offset == before.current.start.offset &&
        p.tokType == tt then
      parseError "unexpected token"
    else checkOom

end Oyl
