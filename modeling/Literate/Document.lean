import Literate.Block.Classify
import Literate.Language.Registry
import Literate.Region.Html
import Literate.Region.Save

/-!
# Documents

A document is a source text that was cut into regions in a known language.  It can be shown, handed
to an editing surface, and put together again from what comes back.
-/

namespace Literate

structure Document where
  language : Language
  mode : EditorMode
  /-- The terminator of regions that name none. -/
  lineEnding : LineEnding
  /-- Empty if the source was not classified. -/
  blocks : List Block
  regions : List Region
  deriving DecidableEq, Repr

namespace Document

/-- A source text in a known language.  Documents without code and sources in raw mode are shown in
one piece; everything else is classified. -/
def ofSource (language : Language) (source : Text) (mode : EditorMode) : Document :=
  let blocks := if language.docOnly || mode = .raw then [] else classify language source
  { language, mode, blocks
    lineEnding := LineEnding.detect source
    regions :=
      if language.docOnly then Region.whole .document source
      else if mode = .raw then Region.whole .code source
      else Region.ofBlocks blocks }

/-- Find the language of a source text and cut it into regions. -/
def load (registry : Registry) (source extension : Text) (mode : EditorMode) :
    Except Error Document :=
  (registry.resolveSource source extension).map (ofSource · source mode)

/-- The regions as they come back when nothing was edited. -/
def editedRegions (document : Document) : List EditedRegion :=
  document.regions.map EditedRegion.ofRegion

def html (document : Document) : Text :=
  Region.htmlOf document.mode document.regions

/-- What writes regions back in the language and with the line ending of the document. -/
def writer (document : Document) : RegionWriter where
  style :=
    if document.language.docOnly then .verbatim
    else .ofMarker (document.language.saveMarker?.getD [])
  lineEnding := document.lineEnding

/-- The source text of edited regions. -/
def save (document : Document) (regions : List EditedRegion) : Except Error Text :=
  document.writer.write regions

end Document

end Literate
