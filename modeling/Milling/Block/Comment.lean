import Milling.Text.Blank
/-!
Comments of a block.

A block is one line of a program. It may hold comments in parentheses, which end at the first
closing one, and a comment after a semicolon, which runs to the end of the text. A parenthesis that
is never closed is ordinary text, and so is a semicolon with a line feed after it.
-/

namespace Milling.Block

/-- A comment in parentheses starts here: the character opens it and the rest closes it. -/
def opensComment (c : Char) (rest : List Char) : Bool :=
  c == '(' && rest.contains ')'

/-- A comment to the end of the text starts here. -/
def startsTail (c : Char) (rest : List Char) : Bool :=
  c == ';' && !rest.contains '\n'

def comment? : List Char → Option (List Char)
  | [] => none
  | c :: rest =>
    if opensComment c rest then some (rest.takeWhile (· != ')'))
    else if startsTail c rest then some rest
    else comment? rest

def withoutParens : List Char → List Char
  | [] => []
  | c :: rest =>
    if opensComment c rest then withoutParens (rest.dropWhile (· != ')')).tail
    else c :: withoutParens rest
termination_by s => s.length
decreasing_by
  · have := (List.dropWhile_suffix (l := rest) (· != ')')).length_le
    simp only [List.length_tail, List.length_cons]
    omega
  · simp

/-- The text without the comment that runs to its end. -/
def withoutTail : List Char → List Char
  | [] => []
  | c :: rest => if startsTail c rest then [] else c :: withoutTail rest

/-- What remains of a block for its words: no comments, no blanks at the ends. -/
def code (s : List Char) : List Char :=
  Text.trim (withoutTail (withoutParens s))

end Milling.Block
