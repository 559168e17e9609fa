import WinSys.Infra.Bytes
import WinSys.Infra.Wide

/-!
# Texts

What several classes do with a text: make it of `char`s, pass it as a `PCWSTR`, put it in quotes.
-/

namespace WinSys.Texts

open Infra

/-- `std::wstring` of a `char` sequence: each is widened with its sign. -/
def widen (text : Bytes) : WString := text.map fun c => c.toInt8.toInt16.toUInt16

/-- `c_str()`, as a function that takes a `PCWSTR` reads it. -/
def cstr (text : WString) : WString := text.takeWhile (· ≠ 0)

def quote : WChar := 0x22

/-- A path in quotes or without. -/
def quoted (inQuotes : Bool) (text : WString) : WString :=
  if inQuotes then quote :: (text ++ [quote]) else text

end WinSys.Texts
