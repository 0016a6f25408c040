import Oyl.Chars

/-!
# Tag schemas

`oyl_schema.c`: the built-in integer and float matchers, rule resolution and
the preset schemas.
-/

namespace Oyl

/-- The bytes of an ASCII text. -/
def ascii (text : String) : Bytes := text.toList.map fun c => UInt8.ofNat c.toNat

def tagNull : Bytes := ascii "tag:yaml.org,2002:null"
def tagBool : Bytes := ascii "tag:yaml.org,2002:bool"
def tagInt : Bytes := ascii "tag:yaml.org,2002:int"
def tagFloat : Bytes := ascii "tag:yaml.org,2002:float"
def tagStr : Bytes := ascii "tag:yaml.org,2002:str"
def tagSeq : Bytes := ascii "tag:yaml.org,2002:seq"
def tagMap : Bytes := ascii "tag:yaml.org,2002:map"

/-- Drop an optional leading sign. -/
def dropSign : Bytes → Bytes
  | [] => []
  | c :: rest => if c == plus || c == dash then rest else c :: rest

def isOctalDigit (c : UInt8) : Bool := 0x30 ≤ c && c ≤ 0x37

def matchInt (s : Bytes) : Bool :=
  match dropSign s with
  | 0x30 :: 0x78 :: digits => !digits.isEmpty && digits.all isHex
  | 0x30 :: 0x6F :: digits => !digits.isEmpty && digits.all isOctalDigit
  | digits => !digits.isEmpty && digits.all isDigit

/-- The exponent that ends a float, if there is one: what it has after it, or
`none` if the exponent has no digit. -/
def dropExponent : Bytes → Option (Bool × Bytes)
  | [] => some (false, [])
  | c :: rest =>
      if c == 0x65 || c == 0x45 then
        let digits := dropSign rest
        let n := runLength isDigit digits
        if n == 0 then none else some (true, digits.drop n)
      else some (false, c :: rest)

def matchFloat (s : Bytes) : Bool :=
  if s == ascii ".nan" then true
  else
    let body := dropSign s
    if body == ascii ".inf" then true
    else
      let digits := runLength isDigit body
      let afterDigits := body.drop digits
      let hasDot := afterDigits.head? == some dot
      let afterDot := if hasDot then afterDigits.drop 1 else afterDigits
      let decimals := if hasDot then runLength isDigit afterDot else 0
      -- a leading dot needs a digit after it
      if digits == 0 && (!hasDot || decimals == 0) then false
      else
        match dropExponent (afterDot.drop decimals) with
        | none => false
        | some (hasExp, tail) => tail.isEmpty && (hasDot || hasExp)

/-- `oyl_match_type` with its pattern; a built-in matcher goes by name. -/
inductive SchemaMatch where
  | exact (pattern : Bytes)
  | icase (pattern : Bytes)
  | builtin (name : Bytes)
  deriving DecidableEq, Repr

structure SchemaRule where
  pattern : SchemaMatch
  tag : Option Bytes
  deriving DecidableEq, Repr

structure Schema where
  rules : List SchemaRule := []
  defaultPlainTag : Option Bytes := some tagStr
  defaultQuotedTag : Option Bytes := some tagStr
  defaultSeqTag : Option Bytes := some tagSeq
  defaultMapTag : Option Bytes := some tagMap
  deriving DecidableEq, Repr

def toLower (c : UInt8) : UInt8 := if 0x41 ≤ c && c ≤ 0x5A then c + 0x20 else c

def SchemaMatch.matches (value : Bytes) : SchemaMatch → Bool
  | .exact pattern => value == pattern
  | .icase pattern => value.map toLower == pattern.map toLower
  | .builtin name =>
      (name == ascii "int" && matchInt value) ||
        (name == ascii "float" && matchFloat value)

def schemaResolve (schema : Schema) (value : Bytes) (style : ScalarStyle) :
    Option Bytes :=
  if style != .plain then schema.defaultQuotedTag
  else
    match schema.rules.find? (·.pattern.matches value) with
    | some rule => rule.tag
    | none => schema.defaultPlainTag

def schemaFailsafe : Schema := {}

def schemaJson : Schema :=
  { rules := [
      ⟨.exact (ascii "null"), some tagNull⟩,
      ⟨.exact (ascii "true"), some tagBool⟩,
      ⟨.exact (ascii "false"), some tagBool⟩,
      ⟨.builtin (ascii "int"), some tagInt⟩,
      ⟨.builtin (ascii "float"), some tagFloat⟩] }

def schemaCore : Schema :=
  { rules := [
      ⟨.exact (ascii "null"), some tagNull⟩,
      ⟨.exact (ascii "Null"), some tagNull⟩,
      ⟨.exact (ascii "NULL"), some tagNull⟩,
      ⟨.exact (ascii "~"), some tagNull⟩,
      ⟨.exact [], some tagNull⟩,
      ⟨.exact (ascii "true"), some tagBool⟩,
      ⟨.exact (ascii "True"), some tagBool⟩,
      ⟨.exact (ascii "TRUE"), some tagBool⟩,
      ⟨.exact (ascii "false"), some tagBool⟩,
      ⟨.exact (ascii "False"), some tagBool⟩,
      ⟨.exact (ascii "FALSE"), some tagBool⟩,
      ⟨.builtin (ascii "int"), some tagInt⟩,
      ⟨.builtin (ascii "float"), some tagFloat⟩] }

end Oyl
