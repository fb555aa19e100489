import ContentVault.Text.Concealed

/-!
# Quoted text

The form in which diagnostics show a text or a character: between quotes, with
the quote and the backslash escaped, the usual controls by letter and every
concealed character by its number.
-/

namespace ContentVault.Text

def quotedChar (quote c : Char) : List Char :=
  if c = quote ∨ c = '\\' then ['\\', c]
  else if c = '\x00' then ['\\', '0']
  else if c = '\t' then ['\\', 't']
  else if c = '\r' then ['\\', 'r']
  else if c = '\n' then ['\\', 'n']
  else if isConcealed c then
    "\\u\x7b".toList ++ Nat.toDigits 16 c.toNat ++ "\x7d".toList
  else [c]

def quoted (text : String) : String :=
  String.ofList ('"' :: text.toList.flatMap (quotedChar '"') ++ ['"'])

def quotedSingle (c : Char) : String :=
  String.ofList ('\'' :: quotedChar '\'' c ++ ['\''])

end ContentVault.Text
