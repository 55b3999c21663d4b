import RuleFlow.Parser.Outcome
import RuleFlow.Path.Basic

/-!
# The inventory parser

A parser for files of any kind: it counts bytes and lines and does not look at what they mean. It counts in doubles,
byte by byte.
-/

namespace RuleFlow.Parser.Inventory

/-! ## Counting -/

/-- What is counted in the bytes that are read so far. -/
structure Counts where
  size : Float := 0
  /-- The lines that are ended by a line feed. -/
  ended : Float := 0
  /-- Whether no byte follows the last line feed. -/
  atLineStart : Bool := true

/-- One more byte. -/
def Counts.next (c : Counts) (b : UInt8) : Counts where
  size := c.size + 1
  ended := if b == 10 then c.ended + 1 else c.ended
  atLineStart := b == 10

/-- The lines, also the one that is not ended. -/
def Counts.lines (c : Counts) : Float := if c.atLineStart then c.ended else c.ended + 1

def Counts.isEmpty (c : Counts) : Bool := c.size == 0

def count (content : Text) : Counts := content.foldl Counts.next {}

/-! ## Findings -/

/-- How sure the parser is of an empty file. -/
def emptyConfidence : Float := 0.1

/-- How sure the parser is of any other file. -/
def confidence : Float := 0.5

/-- What is found in a file with this content. The technology is mentioned if it has a name. -/
def findings (technology file content : Text) : Data :=
  let counts := count content
  let facts : Data :=
    (∅ : Data)
      |>.insert "file_name" (.text (Path.fileName file))
      |>.insert "extension" (.text (Path.extension file))
      |>.insert "line_count" (.number counts.lines)
      |>.insert "size_bytes" (.number counts.size)
      |>.insert "empty" (.flag counts.isEmpty)
      |>.insert confidenceName (.number (if counts.isEmpty then emptyConfidence else confidence))
  if technology.isEmpty then facts else facts.insert "technology" (.text technology)

/-- The attempt on a file; `read?` gives the content of a file that can be opened. -/
def attempt (read? : Text → Option Text) (technology file : Text) : Outcome :=
  match read? file with
  | some content => .found (findings technology file content)
  | none => .failed (.explained ("Failed to open file: " ++ file))

/-- The parser for a technology. All its attempts on a file end alike. -/
def parser (read? : Text → Option Text) (technology : Text) : Parser where
  outcome file _ := attempt read? technology file

end RuleFlow.Parser.Inventory
