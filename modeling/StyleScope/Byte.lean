/-
The bytes of a style sheet and the classes the scanner knows. Each delimiter is ASCII, so a text is
scanned byte by byte: no byte of a longer character is mistaken for one.
-/

namespace StyleScope

/-- A text as the list of its bytes. What a scan leaves over is a suffix of what it was given. -/
abbrev Bytes := List UInt8

namespace Byte

/-! ## The delimiters -/

/-- The six bytes that separate words: tab, line feed, vertical tab, form feed, carriage return, space. -/
def spaces : Bytes := [0x09, 0x0A, 0x0B, 0x0C, 0x0D, 0x20]

/-- Double quotation mark. -/
def doubleQuote : UInt8 := 0x22
/-- Single quotation mark, the apostrophe. -/
def singleQuote : UInt8 := 0x27
/-- Opening parenthesis. -/
def openParen : UInt8 := 0x28
/-- Closing parenthesis. -/
def closeParen : UInt8 := 0x29
/-- Asterisk. -/
def star : UInt8 := 0x2A
/-- Comma. -/
def comma : UInt8 := 0x2C
/-- Slash. -/
def slash : UInt8 := 0x2F
/-- Colon. -/
def colon : UInt8 := 0x3A
/-- Semicolon. -/
def semicolon : UInt8 := 0x3B
/-- At sign, which begins the name of an at-rule. -/
def atSign : UInt8 := 0x40
/-- Opening square bracket. -/
def openBracket : UInt8 := 0x5B
/-- Backslash, which escapes the byte after it. -/
def backslash : UInt8 := 0x5C
/-- Closing square bracket. -/
def closeBracket : UInt8 := 0x5D
/-- Opening brace, which begins a block. -/
def openBrace : UInt8 := 0x7B
/-- Closing brace, which ends a block. -/
def closeBrace : UInt8 := 0x7D

/-! ## The classes -/

/-- Space or line break. -/
def isSpace (b : UInt8) : Bool := spaces.contains b

/-- Opens or closes a string. -/
def isQuote (b : UInt8) : Bool := b == singleQuote || b == doubleQuote

/-- Opens a group whose inside is not top level. -/
def opensGroup (b : UInt8) : Bool := b == openParen || b == openBracket

/-- Closes a group; a closing byte need not be of the kind that opened it. -/
def closesGroup (b : UInt8) : Bool := b == closeParen || b == closeBracket

/-- Either brace. -/
def isBrace (b : UInt8) : Bool := b == openBrace || b == closeBrace

/-- The character with the byte's number, as messages show a byte. -/
def toChar (b : UInt8) : Char := Char.ofNat b.toNat

end Byte

end StyleScope
