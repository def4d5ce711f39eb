import Stylesheet.Layout.Basic

namespace Stylesheet.Layout

/-- One block on a line, no comments. -/
def plain : Layout := {}

/-- No spacing, no comments and no semicolon that could be left out. -/
def compact : Layout where
  spacing := { afterName := "", betweenBlocks := "", afterSelectorComma := "", beforeBrace := "" }
  lastSemicolon := false

/-- One declaration on a line, indented by tabs, with comments and a blank line between blocks. -/
def pretty : Layout where
  spacing := {
    beforeDeclarations := "\n"
    afterDeclarations := "\n"
    betweenDeclarations := "\n"
    beforeBlocks := "\n"
    afterBlocks := "\n"
    betweenBlocks := "\n\n"
    afterSeparatorOf := { comma := some " " } }
  comments := true

end Stylesheet.Layout
