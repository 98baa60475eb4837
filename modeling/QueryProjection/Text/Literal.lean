import QueryProjection.Text.Hex
import QueryProjection.Text.Visible

/-!
# Texts shown in messages

A message that repeats what a user wrote shows it between quotes, with everything escaped
that would not be visible.  Single quotes are used, unless the text holds single quotes
and no double ones.
-/

namespace QueryProjection.Text

def shownChar (mark : Char) (c : Char) : List Char :=
  let n := c.toNat
  if c = mark || c = '\\' then ['\\', c]
  else if c = '\n' then ['\\', 'n']
  else if c = '\r' then ['\\', 'r']
  else if c = '\t' then ['\\', 't']
  else if isVisible c then [c]
  else if n < 0x100 then '\\' :: 'x' :: (hexUnit n).drop 2
  else if n < 0x10000 then '\\' :: 'u' :: hexUnit n
  else '\\' :: 'U' :: hexUnit (n / 0x10000) ++ hexUnit (n % 0x10000)

def shown (s : String) : String :=
  let cs := s.toList
  let mark := if cs.contains '\'' && !cs.contains '"' then '"' else '\''
  String.ofList (mark :: cs.flatMap (shownChar mark) ++ [mark])

end QueryProjection.Text
