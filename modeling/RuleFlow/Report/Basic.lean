import RuleFlow.Text.Basic

/-!
# Reports and their tables

A report has a text for readers and a text for programs. The first one is Markdown: `Table.row` writes a row of a table,
and `Table.cell` spells a text so that it stays inside its cell.
-/

namespace RuleFlow

/-- The texts of a report; one that was not asked for is empty. -/
structure Report where
  markdown : Text := []
  json : Text := []

namespace Report

def markdownFormat : Text := "markdown"

def jsonFormat : Text := "json"

/-- The format is one of those that are asked for. Who asks for none gets Markdown. -/
def isAskedFor (formats : List Text) (format : Text) : Bool :=
  if formats.isEmpty then format == markdownFormat else formats.contains format

/-- A report with the texts that are asked for. -/
def ofFormats (formats : List Text) (markdown json : Unit → Text) : Report where
  markdown := if isAskedFor formats markdownFormat then markdown () else []
  json := if isAskedFor formats jsonFormat then json () else []

end Report

namespace Table

/-- How a byte is spelled in a cell. -/
def cellByte (b : UInt8) : Text :=
  if b == 124 then "\\|" else if b == 10 then "<br>" else if b == 13 then [] else [b]

/-- The text inside a cell: pipes are escaped, lines are broken by a tag, and carriage returns are left out. -/
def cell (t : Text) : Text := t.flatMap cellByte

/-- A row of cells. -/
def row (cells : List Text) : Text := "| " ++ Text.join " | " cells ++ " |\n"

/-- The names of the columns and the line below them. -/
def header (columns : List Text) : Text := row columns ++ row (columns.map fun _ => "---")

/-- A table with a blank line after it. -/
def render (columns : List Text) (rows : List (List Text)) : Text := header columns ++ rows.flatMap row ++ "\n"

/-- The row of a table that has nothing to list. -/
def emptyRow (columns : List Text) : List Text := "None" :: columns.tail.map fun _ => "-"

/-- A table that says so when there are no rows. -/
def renderOrNone (columns : List Text) (rows : List (List Text)) : Text :=
  render columns (if rows.isEmpty then [emptyRow columns] else rows)

end Table

end RuleFlow
