/-!
# Tokens

What a text consists of before any of it is put together.  Indentation shows as the start and the end of block
collections.
-/
namespace Interchange
namespace Yaml

inductive Token where
  | version (major minor : Nat)
  /-- A handle for tags, and what it stands for. -/
  | handle (name start : String)
  | documentStart
  | documentEnd
  | textEnd
  | blockSequence
  | blockMapping
  | blockEnd
  | openBracket
  | closeBracket
  | openBrace
  | closeBrace
  | comma
  | hyphen
  /-- A key follows. -/
  | key
  /-- The value of a key follows. -/
  | value
  | alias (name : String)
  | anchor (name : String)
  | tag (handle rest : String)
  | scalar (text : List Char) (isPlain : Bool)
deriving DecidableEq, Repr

end Yaml
end Interchange
