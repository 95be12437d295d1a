import Literate.Text.Basic

/-!
# Blocks

A classified source text is a list of blocks.  Each block remembers enough to give back the
characters it was made from.
-/

namespace Literate

/-- A stretch of source text that is code, or one comment that is documentation. -/
inductive Block where
  | code (text : Text)
  /-- An inline comment alone on its line.  `text` is what follows the marker, less one space if
  `spaced`, with the terminator of the line. -/
  | inlineDoc (indent marker : Text) (spaced : Bool) (text : Text)
  /-- A block comment.  `text` is the whole comment with both its tokens. -/
  | blockDoc (marker text : Text)
  deriving DecidableEq, Repr

namespace Block

def isCode : Block → Bool
  | code _ => true
  | _ => false

/-- The text that a reader of the block sees. -/
def text : Block → Text
  | code text => text
  | inlineDoc _ _ _ text => text
  | blockDoc _ text => text

/-- The source text of the block. -/
def source : Block → Text
  | code text => text
  | inlineDoc indent marker spaced text =>
    indent ++ marker ++ (if spaced then [' '] else []) ++ text
  | blockDoc _ text => text

/-- The source text of consecutive blocks. -/
def sourceOf (blocks : List Block) : Text :=
  blocks.flatMap source

end Block

end Literate
