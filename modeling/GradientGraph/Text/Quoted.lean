import GradientGraph.Text.Hidden

/-!
# Quoted text

Text between double quotes on one line: the quote and the backslash are
escaped, the common controls have letters, and a hidden character is spelled
by its number in hexadecimal.
-/

set_option autoImplicit false

namespace GradientGraph

def quotedChar (c : Char) : List Char :=
  if c = '\x00' then ['\x5c', '0']
  else if c = '\t' then ['\x5c', 't']
  else if c = '\r' then ['\x5c', 'r']
  else if c = '\n' then ['\x5c', 'n']
  else if c = '\x5c' ∨ c = '\x22' then ['\x5c', c]
  else if isHidden c then "\\u\x7b".toList ++ Nat.toDigits 16 c.toNat ++ "\x7d".toList
  else [c]

def quoted (s : String) : String :=
  String.ofList ('\x22' :: s.toList.flatMap quotedChar ++ ['\x22'])

end GradientGraph
