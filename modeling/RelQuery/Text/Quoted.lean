import RelQuery.Text.Hex

/-!
# Quoted text

An identifier is quoted by doubling the quotes inside it. Text shown in a log is escaped with
backslashes, so that it stays on one line and ends at its own quote.
-/

set_option autoImplicit false

namespace RelQuery.Text

def doubleQuotes : List Char → List Char
  | [] => []
  | c :: cs => if c = '"' then '"' :: '"' :: doubleQuotes cs else c :: doubleQuotes cs

/-- A name between double quotes, each double quote inside it written twice. -/
def quoteIdentifier (name : String) : String :=
  String.ofList ('"' :: doubleQuotes name.toList ++ ['"'])

def backtick : Char :=
  Char.ofNat 96

def quoteWithBackticks (name : String) : String :=
  String.ofList (backtick :: name.toList ++ [backtick])

/-- The control characters of Unicode: C0, delete and C1. -/
def isControl (c : Char) : Bool :=
  c.toNat < 0x20 || (0x7F ≤ c.toNat && c.toNat ≤ 0x9F)

/-- A backslash is escaped first, then the quote, so a quote that is a control character
follows its backslash unchanged. -/
def escapeChar (quote c : Char) : List Char :=
  if c = '\\' then ['\\', '\\']
  else if c = quote then ['\\', c]
  else if c = '\n' then ['\\', 'n']
  else if c = '\r' then ['\\', 'r']
  else if c = '\t' then ['\\', 't']
  else if isControl c then ['\\', 'u', '0', '0', hexDigit (c.toNat / 16), hexDigit (c.toNat % 16)]
  else [c]

def escapeFor (quote : Char) (s : String) : String :=
  String.ofList (s.toList.flatMap (escapeChar quote))

def escape (s : String) : String :=
  escapeFor '"' s

end RelQuery.Text
