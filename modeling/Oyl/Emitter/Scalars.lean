import Oyl.Schema

/-!
# Scalars and tags in the emitter

`oyl_emitter.c` from `is_yaml_keyword` to `emit_tag`: which style a scalar gets and what
is written for it.  A function that fills the output buffer returns the bytes it puts there.
-/

namespace Oyl

/-- `oyl_is_indicator`. -/
def isIndicator (c : UInt8) : Bool :=
  isFlow c || c == bang || c == dquote || c == hash || c == percent || c == amp ||
    c == squote || c == star || c == dash || c == colon || c == greater || c == question ||
    c == 0x40 || c == 0x60 || c == pipe

/-! ### The style of a scalar -/

def yamlKeywords : List Bytes :=
  [ascii "null", ascii "Null", ascii "NULL", ascii "~",
    ascii "true", ascii "True", ascii "TRUE", ascii "false", ascii "False", ascii "FALSE",
    ascii ".inf", ascii "+.inf", ascii "-.inf", ascii ".nan", ascii ".Inf", ascii ".NaN",
    ascii ".Nan", ascii ".INF", ascii ".NAN"]

def isYamlKeyword (s : Bytes) : Bool := yamlKeywords.contains s

/-- The loop of `looks_like_number`; `prev` is the byte before. -/
def numberBytes (prev : Option UInt8) (hasDot hasE : Bool) : Bytes → Bool
  | [] => true
  | c :: rest =>
      if isDigit c then numberBytes (some c) hasDot hasE rest
      else if c == dot && !hasDot then numberBytes (some c) true hasE rest
      else if (c == 0x65 || c == 0x45) && !hasE then numberBytes (some c) hasDot true rest
      else if (c == plus || c == dash) && (prev == some 0x65 || prev == some 0x45) then
        numberBytes (some c) hasDot hasE rest
      else false

def looksLikeNumber : Bytes → Bool
  | [] => false
  | first :: rest =>
      let signed := first == plus || first == dash
      if signed && rest.isEmpty then false
      else
        match if signed then rest else first :: rest with
        | 0x30 :: 0x78 :: _ => true
        | 0x30 :: 0x6F :: _ => true
        | body => numberBytes (if signed then some first else none) false false body

def hasBreak (s : Bytes) : Bool := s.any isBreak

def needsEscape (s : Bytes) : Bool := s.any fun c => (c < 0x20 && c != tab) || c == del

/-- The loop of `needs_quoting`. -/
def unsafeBytes (flowCtx : Bool) : Bytes → Bool
  | [] => false
  | c :: rest =>
      (c == colon && (rest.isEmpty || rest.head? == some space || rest.head? == some tab)) ||
        (isBlank c && rest.head? == some hash) || isBreak c || (flowCtx && isFlow c) ||
        (isBlank c && rest.isEmpty) || unsafeBytes flowCtx rest

/-- A first byte that would start something else than a plain scalar. -/
def unsafeFirst (flowCtx : Bool) (first : UInt8) (rest : Bytes) : Bool :=
  isIndicator first &&
    (!(first == dash || first == question || first == colon) ||
      rest.head?.all fun next => isBlankOrBreak next || (flowCtx && isFlow next))

def needsQuoting (s : Bytes) (flowCtx : Bool) : Bool :=
  match s with
  | [] => true
  | first :: rest =>
      unsafeFirst flowCtx first rest || isBlank first || s.take 3 == [0xEF, 0xBB, 0xBF] ||
        s.take 3 == [dash, dash, dash] || s.take 3 == [dot, dot, dot] || unsafeBytes flowCtx s

def literalOk (s : Bytes) : Bool :=
  !(s.any fun c => (c < 0x20 && c != lf && c != tab) || c == del) &&
    (s.dropWhile (· == lf)).head? != some space

def isStrTag (tag : Option Bytes) : Bool := tag == some tagStr

def chooseStyle (requested : ScalarStyle) (val : Bytes) (flowCtx isKey : Bool)
    (tag : Option Bytes) : ScalarStyle :=
  let blockOk := !flowCtx && !isKey && literalOk val
  match requested with
  | .literal | .folded => if blockOk then .literal else .doubleQuoted
  | .singleQuoted => if hasBreak val then .doubleQuoted else .singleQuoted
  | .doubleQuoted => .doubleQuoted
  | .plain =>
      if val.isEmpty && !isStrTag tag then .plain
      else if needsEscape val then .doubleQuoted
      else if !needsQuoting val flowCtx then
        if isStrTag tag && (isYamlKeyword val || looksLikeNumber val) then .doubleQuoted
        else .plain
      else if needsEscape val then .doubleQuoted
      else if blockOk && hasBreak val then .literal
      else .doubleQuoted

/-! ### The text of a scalar -/

def singleQuotedByte (c : UInt8) : Bytes := if c == squote then [squote, squote] else [c]

def emitSingleQuoted (s : Bytes) : Bytes := squote :: (s.flatMap singleQuotedByte ++ [squote])

/-- A digit as `%X` prints it. -/
def upperHexDigit (n : UInt8) : UInt8 := if n < 10 then 0x30 + n else 0x37 + n

def doubleQuotedByte (c : UInt8) : Bytes :=
  if c == backslash then [backslash, backslash]
  else if c == dquote then [backslash, dquote]
  else if c == lf then [backslash, 0x6E]
  else if c == cr then [backslash, 0x72]
  else if c == tab then [backslash, 0x74]
  else if c == 0 then [backslash, 0x30]
  else if c == 0x07 then [backslash, 0x61]
  else if c == 0x08 then [backslash, 0x62]
  else if isControl c then [backslash, 0x78, upperHexDigit (c / 16), upperHexDigit (c % 16)]
  else [c]

def emitDoubleQuoted (s : Bytes) : Bytes := dquote :: (s.flatMap doubleQuotedByte ++ [dquote])

/-- The body lines of `emit_block_scalar`, each ending in a line break; `line` is what
has been read of the current one. -/
def emitBodyLines (indent : Nat) (line : Bytes) : Bytes → Bytes
  | [] => if line.isEmpty then [] else List.replicate indent space ++ line ++ [lf]
  | c :: rest =>
      if c == lf then
        (if line.isEmpty then [] else List.replicate indent space ++ line) ++
          lf :: emitBodyLines indent [] rest
      else emitBodyLines indent (line ++ [c]) rest

def blockHeaderText (body : Bytes) (trail : Nat) : Bytes :=
  if body.isEmpty then (if trail > 0 then [pipe, plus, lf] else [pipe, dash, lf])
  else if trail == 0 then [pipe, dash, lf]
  else if trail == 1 then [pipe, lf]
  else [pipe, plus, lf]

def emitBlockScalar (s : Bytes) (indent : Nat) : Bytes :=
  let trail := runLength (· == lf) s.reverse
  let body := s.take (s.length - trail)
  blockHeaderText body trail ++ emitBodyLines indent [] body ++
    List.replicate (trail - (if body.isEmpty then 0 else 1)) lf

/-! ### The text of a tag -/

def uriMarks : Bytes := ascii "-#;/?:@&=+$,_.!~*'()[]"

def isUriChar (c : UInt8) : Bool :=
  (0x61 ≤ c && c ≤ 0x7A) || (0x41 ≤ c && c ≤ 0x5A) || isDigit c || uriMarks.contains c

/-- The characters of a shorthand tag's suffix. -/
def isTagChar (c : UInt8) : Bool := isUriChar c && c != bang && !isFlow c

def tagPrefix : Bytes := ascii "tag:yaml.org,2002:"

def verbatimByte (c : UInt8) : Bytes :=
  if isUriChar c then [c] else [percent, upperHexDigit (c / 16), upperHexDigit (c % 16)]

/-- The tag's text without the blank after it. -/
def tagText (tag : Bytes) : Bytes :=
  if tag.length > tagPrefix.length && tag.take tagPrefix.length == tagPrefix &&
      (tag.drop tagPrefix.length).all isTagChar then
    bang :: bang :: tag.drop tagPrefix.length
  else if tag.head? == some bang && (tag.drop 1).all isTagChar then tag
  else bang :: less :: (tag.flatMap verbatimByte ++ [greater])

def emitTag (tag : Bytes) : Bytes := if tag.isEmpty then [] else tagText tag ++ [space]

end Oyl
