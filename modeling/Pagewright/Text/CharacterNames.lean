import Pagewright.Text.Basic

namespace Pagewright

abbrev NameTable := Text → Option Char

/-- The names by which escapes in literals write characters. -/
class CharacterNames where
  table : NameTable

namespace CharacterNames

def neighbours : List (Nat × List String) :=
  [(0x20, ["SPACE", "EXCLAMATION MARK", "QUOTATION MARK", "NUMBER SIGN", "DOLLAR SIGN",
    "PERCENT SIGN", "AMPERSAND", "APOSTROPHE", "LEFT PARENTHESIS", "RIGHT PARENTHESIS",
    "ASTERISK", "PLUS SIGN", "COMMA", "HYPHEN-MINUS", "FULL STOP", "SOLIDUS", "DIGIT ZERO",
    "DIGIT ONE", "DIGIT TWO", "DIGIT THREE", "DIGIT FOUR", "DIGIT FIVE", "DIGIT SIX",
    "DIGIT SEVEN", "DIGIT EIGHT", "DIGIT NINE", "COLON", "SEMICOLON", "LESS-THAN SIGN",
    "EQUALS SIGN", "GREATER-THAN SIGN", "QUESTION MARK", "COMMERCIAL AT"]),
   (0x5B, ["LEFT SQUARE BRACKET", "REVERSE SOLIDUS", "RIGHT SQUARE BRACKET", "CIRCUMFLEX ACCENT",
    "LOW LINE", "GRAVE ACCENT"]),
   (0x7B, ["LEFT CURLY BRACKET", "VERTICAL LINE", "RIGHT CURLY BRACKET", "TILDE"]),
   (0xA0, ["NO-BREAK SPACE", "INVERTED EXCLAMATION MARK", "CENT SIGN", "POUND SIGN",
    "CURRENCY SIGN", "YEN SIGN", "BROKEN BAR", "SECTION SIGN", "DIAERESIS", "COPYRIGHT SIGN",
    "FEMININE ORDINAL INDICATOR", "LEFT-POINTING DOUBLE ANGLE QUOTATION MARK", "NOT SIGN",
    "SOFT HYPHEN", "REGISTERED SIGN", "MACRON", "DEGREE SIGN", "PLUS-MINUS SIGN",
    "SUPERSCRIPT TWO", "SUPERSCRIPT THREE", "ACUTE ACCENT", "MICRO SIGN", "PILCROW SIGN",
    "MIDDLE DOT", "CEDILLA", "SUPERSCRIPT ONE", "MASCULINE ORDINAL INDICATOR",
    "RIGHT-POINTING DOUBLE ANGLE QUOTATION MARK", "VULGAR FRACTION ONE QUARTER",
    "VULGAR FRACTION ONE HALF", "VULGAR FRACTION THREE QUARTERS", "INVERTED QUESTION MARK"]),
   (0xD7, ["MULTIPLICATION SIGN"]),
   (0xDF, ["LATIN SMALL LETTER SHARP S"]),
   (0xF7, ["DIVISION SIGN"]),
   (0xFF, ["LATIN SMALL LETTER Y WITH DIAERESIS"]),
   (0x3C2, ["GREEK SMALL LETTER FINAL SIGMA"]),
   (0x2009, ["THIN SPACE", "HAIR SPACE", "ZERO WIDTH SPACE"]),
   (0x2010, ["HYPHEN", "NON-BREAKING HYPHEN", "FIGURE DASH", "EN DASH", "EM DASH",
    "HORIZONTAL BAR", "DOUBLE VERTICAL LINE", "DOUBLE LOW LINE", "LEFT SINGLE QUOTATION MARK",
    "RIGHT SINGLE QUOTATION MARK", "SINGLE LOW-9 QUOTATION MARK",
    "SINGLE HIGH-REVERSED-9 QUOTATION MARK", "LEFT DOUBLE QUOTATION MARK",
    "RIGHT DOUBLE QUOTATION MARK", "DOUBLE LOW-9 QUOTATION MARK",
    "DOUBLE HIGH-REVERSED-9 QUOTATION MARK", "DAGGER", "DOUBLE DAGGER", "BULLET",
    "TRIANGULAR BULLET", "ONE DOT LEADER", "TWO DOT LEADER", "HORIZONTAL ELLIPSIS",
    "HYPHENATION POINT"]),
   (0x20AC, ["EURO SIGN"]),
   (0x2103, ["DEGREE CELSIUS"]),
   (0x2122, ["TRADE MARK SIGN"]),
   (0x2190, ["LEFTWARDS ARROW", "UPWARDS ARROW", "RIGHTWARDS ARROW", "DOWNWARDS ARROW"]),
   (0x21D2, ["RIGHTWARDS DOUBLE ARROW"]),
   (0x2200, ["FOR ALL"]),
   (0x2203, ["THERE EXISTS"]),
   (0x2205, ["EMPTY SET", "INCREMENT", "NABLA", "ELEMENT OF"]),
   (0x2211, ["N-ARY SUMMATION", "MINUS SIGN"]),
   (0x221A, ["SQUARE ROOT"]),
   (0x221E, ["INFINITY"]),
   (0x2248, ["ALMOST EQUAL TO"]),
   (0x2260, ["NOT EQUAL TO", "IDENTICAL TO"]),
   (0x2264, ["LESS-THAN OR EQUAL TO", "GREATER-THAN OR EQUAL TO"]),
   (0x2605, ["BLACK STAR", "WHITE STAR"]),
   (0x263A, ["WHITE SMILING FACE"]),
   (0x2665, ["BLACK HEART SUIT"]),
   (0x26A0, ["WARNING SIGN"]),
   (0x2705, ["WHITE HEAVY CHECK MARK"]),
   (0x2713, ["CHECK MARK", "HEAVY CHECK MARK", "MULTIPLICATION X", "HEAVY MULTIPLICATION X",
    "BALLOT X", "HEAVY BALLOT X"]),
   (0x2728, ["SPARKLES"]),
   (0x274C, ["CROSS MARK"]),
   (0xFFFD, ["REPLACEMENT CHARACTER"]),
   (0x1F40D, ["SNAKE"]),
   (0x1F389, ["PARTY POPPER"]),
   (0x1F525, ["FIRE"]),
   (0x1F600, ["GRINNING FACE"]),
   (0x1F680, ["ROCKET"])]

def marked : List (Nat × List String) :=
  [(0, ["A WITH GRAVE", "A WITH ACUTE", "A WITH CIRCUMFLEX", "A WITH TILDE", "A WITH DIAERESIS",
    "A WITH RING ABOVE", "AE", "C WITH CEDILLA", "E WITH GRAVE", "E WITH ACUTE",
    "E WITH CIRCUMFLEX", "E WITH DIAERESIS", "I WITH GRAVE", "I WITH ACUTE", "I WITH CIRCUMFLEX",
    "I WITH DIAERESIS", "ETH", "N WITH TILDE", "O WITH GRAVE", "O WITH ACUTE",
    "O WITH CIRCUMFLEX", "O WITH TILDE", "O WITH DIAERESIS"]),
   (24, ["O WITH STROKE", "U WITH GRAVE", "U WITH ACUTE", "U WITH CIRCUMFLEX",
    "U WITH DIAERESIS", "Y WITH ACUTE", "THORN"])]

/-- The Greek letters in order, without the second form of the small sigma. -/
def greek : List (Nat × List String) :=
  [(0, ["ALPHA", "BETA", "GAMMA", "DELTA", "EPSILON", "ZETA", "ETA", "THETA", "IOTA", "KAPPA",
    "LAMDA", "MU", "NU", "XI", "OMICRON", "PI", "RHO"]),
   (18, ["SIGMA", "TAU", "UPSILON", "PHI", "CHI", "PSI", "OMEGA"])]

def find? (rows : List (Nat × List String)) (base : Nat) (name : Text) : Option Char :=
  rows.findSome? fun (first, names) =>
    ((names.map String.toList).idxOf? name).map fun i => Char.ofNat (base + first + i)

def letter? (base : Nat) (rest : Text) : Option Char :=
  match rest with
  | [c] => if c.isUpper then some c else none
  | _ => find? marked base rest

/-- The names of the characters of Basic Latin and Latin-1, of the Greek letters and of some further
signs, in capitals or not. Names of other characters are not known. -/
def known : NameTable := fun name =>
  let name := name.map Char.toUpper
  let behind (start : Text) := start.isPrefixOf? name
  if let some rest := behind "LATIN CAPITAL LETTER " then letter? 0xC0 rest
  else if let some c := (behind "LATIN SMALL LETTER ").bind (letter? 0xE0) then some c.toLower
  else if let some rest := behind "GREEK CAPITAL LETTER " then find? greek 0x391 rest
  else if let some c := (behind "GREEK SMALL LETTER ").bind (find? greek 0x3B1) then some c
  else find? neighbours 0 name

end CharacterNames

instance : CharacterNames := ⟨CharacterNames.known⟩

example : CharacterNames.known "Latin small letter e with acute" = some 'é' := by
  decide +kernel

end Pagewright
