import Pagewright.Syntax.Token

namespace Pagewright.Syntax

inductive Cause where
  -- The grammar has no place for a token.
  | unexpected (token : TokenKind)
  | missingBlock
  | unexpectedEnd
  -- No token can be read.
  | openAtEnd
  | lineEndInLiteral
  | endInLiteral
  | unopenedBracket
  | unknownCharacter (c : Char)
  | strayContinuation
  | unmatchedDedent
  | mixedIndentation
  | tabAfterSpaces
  | leadingZeros
  | strayUnderscore
  | noDigits
  | badFraction
  -- A literal of characters has no value.
  | badCharacterEscape
  | mixedLiterals
  | nonAsciiBytes
  -- A format literal is not well formed.
  | fieldUnclosed
  | fieldEmpty
  | fieldBraceAlone
  | fieldConversion
  | fieldUnterminated
  | fieldMismatch (opened closed : Char)
  | fieldUnopened (closed : Char)
  | fieldTooDeep
  | inField (cause : Cause)
  -- A construct is well formed but not allowed.
  | repeatedParameter (name : Text)
  | defaultBeforePlain
  | bareStar
  | repeatedKeyword (name : Text)
  | positionalAfterKeyword
  | unpackingAfterKeywords
  | wildcardTarget
  | starred
  | doubleStarred
  deriving DecidableEq, Repr

namespace Cause

def message : Cause → Text
  | .unexpected .indent => "unexpected indent"
  | .unexpected token => "invalid syntax. Got unexpected token " ++ token.shown
  | .missingBlock => "expected an indented block"
  | .unexpectedEnd => "Got unexpected EOF"
  | .openAtEnd => "unexpected EOF while parsing"
  | .lineEndInLiteral => "EOL while scanning string literal"
  | .endInLiteral => "Got unexpected string"
  | .unopenedBracket => "Got unexpected nesting"
  | .unknownCharacter c => "Got unexpected token " ++ [c]
  | .strayContinuation => "unexpected character after line continuation character"
  | .unmatchedDedent => "unindent does not match any outer indentation level"
  | .mixedIndentation => "inconsistent use of tabs and spaces in indentation"
  | .tabAfterSpaces => "Tabs not allowed as part of indentation after spaces"
  | .leadingZeros => "Invalid Token"
  | .strayUnderscore => "Invalid Syntax"
  | .noDigits => "ParseBigIntError \x7b kind: Empty \x7d"
  | .badFraction => "Invalid decimal literal"
  | .badCharacterEscape => "Got unexpected unicode"
  | .mixedLiterals => "cannot mix bytes and nonbytes literals"
  | .nonAsciiBytes => "bytes can only contain ASCII literal characters"
  | .fieldUnclosed => "f-string: expecting '\x7d'"
  | .fieldEmpty => "f-string: empty expression not allowed"
  | .fieldBraceAlone => "f-string: single '\x7d' is not allowed"
  | .fieldConversion => "f-string: invalid conversion character"
  | .fieldUnterminated => "f-string: unterminated string"
  | .fieldMismatch opened closed =>
    "f-string: closing parenthesis '" ++ [closed]
      ++ "' does not match opening parenthesis '" ++ [opened] ++ "'"
  | .fieldUnopened closed => "f-string: unmatched '" ++ [closed] ++ "'"
  | .fieldTooDeep => "f-string: expressions nested too deeply"
  | .inField cause => "f-string: " ++ cause.message
  | .repeatedParameter name =>
    "duplicate argument '" ++ name ++ "' in function definition"
  | .defaultBeforePlain => "non-default argument follows default argument"
  | .bareStar => "named arguments must follow bare *"
  | .repeatedKeyword name => "keyword argument repeated: " ++ name
  | .positionalAfterKeyword => "positional argument follows keyword argument"
  | .unpackingAfterKeywords =>
    "iterable argument unpacking follows keyword argument unpacking"
  | .wildcardTarget => "cannot use '_' as a target"
  | .starred => "cannot use starred expression here"
  | .doubleStarred => "cannot use double starred expression here"

end Cause

structure Fault where
  cause : Cause
  offset : Nat
  deriving DecidableEq, Repr

def Fault.message (f : Fault) : Text :=
  f.cause.message ++ " at byte offset " ++ Text.ofNat f.offset

end Pagewright.Syntax
