import Literate.Block.Basic
import Literate.Region.Mode
import Literate.Text.Line

/-!
# Regions

A region is what an editing surface shows in one piece: a block of code, a block comment, or a run
of inline comments with the same indent and the same marker.  The terminator at the end of its text
is kept apart, because the border of the region stands in for it.
-/

namespace Literate

namespace Region

/-- What a region shows. -/
inductive Role where
  | code
  /-- Comments of the source, shown beside their indent. -/
  | comment (indent : Text) (isBlock : Bool)
  /-- A whole document that is documentation. -/
  | document
  deriving DecidableEq, Repr

namespace Role

def kind : Role → RegionKind
  | code => .code
  | comment _ _ => .doc
  | document => .doc

def indent? : Role → Option Text
  | code => none
  | comment indent _ => some indent
  | document => none

def isBlockComment : Role → Bool
  | code => false
  | comment _ isBlock => isBlock
  | document => false

/-- The role of a region that starts with the block. -/
def ofBlock : Block → Role
  | .code _ => code
  | .inlineDoc indent _ _ _ => comment indent false
  | .blockDoc _ _ => comment [] true

end Role

end Region

/-- One region of a document. -/
structure Region where
  role : Region.Role
  /-- The number of the first line, counted from one. -/
  firstLine : Nat
  /-- The text without its final terminator. -/
  content : Text
  /-- The terminator that was taken off. -/
  terminator : Option LineEnding
  deriving DecidableEq, Repr

namespace Region

/-- A region that shows the text. -/
def showing (role : Role) (firstLine : Nat) (text : Text) : Region where
  role
  firstLine
  content := text.stripTerminator.1
  terminator := text.stripTerminator.2

/-- Two neighbours that are shown in one region. -/
def joins : Block → Block → Bool
  | .inlineDoc indent marker _ _, .inlineDoc indent' marker' _ _ =>
    indent == indent' && marker == marker'
  | _, _ => false

/-- The number of terminators in the source of the blocks, block by block. -/
def height : List Block → Nat
  | [] => 0
  | block :: blocks => block.source.countTerminators + height blocks

/-- The regions of runs of blocks, the first of which starts at line `line`. -/
def ofRuns (line : Nat) : List (List Block) → List Region
  | [] => []
  | [] :: runs => ofRuns line runs
  | (block :: blocks) :: runs =>
    showing (.ofBlock block) line ((block :: blocks).flatMap Block.text) ::
      ofRuns (line + height (block :: blocks)) runs

/-- The regions of a classified source. -/
def ofBlocks (blocks : List Block) : List Region :=
  ofRuns 1 (blocks.splitBy joins)

/-- A source that is shown in one piece.  An empty source has no regions. -/
def whole (role : Role) (source : Text) : List Region :=
  if source.isEmpty then [] else [showing role 1 source]

/-- Text that may be typed into an indent. -/
def acceptsIndentInput (text : Text) : Bool :=
  text.isBlank

end Region

end Literate
