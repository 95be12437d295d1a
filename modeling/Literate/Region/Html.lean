import Literate.Region.Basic
import Literate.Text.Markup

/-!
# Regions as markup

Each region becomes one element, to which an editing surface attaches its widgets.  Code and block
comments are shown character for character.  Inline documentation is markup already, and so is a
document that is nothing else.
-/

namespace Literate

namespace Region

/-- The attribute of everything that cannot be edited. -/
def readOnlyAttribute (mode : EditorMode) : Text :=
  if mode.isReadOnly then " data-read-only" else ""

def codeHtml (mode : EditorMode) (firstLine : Nat) (content : Text) : Text :=
  "<div class=\"litdoc-code\">\n    <div class=\"litdoc-code-editor\" data-first-line-number=\"" ++
    Text.ofNat firstLine ++ "\"" ++ readOnlyAttribute mode ++ ">" ++ content.toMarkup ++
    "</div>\n</div>\n"

def documentHtml (mode : EditorMode) (content : Text) : Text :=
  "<div class=\"litdoc-doc-only\"" ++ readOnlyAttribute mode ++ ">" ++ content ++ "</div>\n"

def commentHtml (mode : EditorMode) (indent : Text) (isBlock : Bool) (content : Text) : Text :=
  "<div class=\"litdoc-doc\"" ++ (if isBlock then " data-block-comment" else "") ++
    readOnlyAttribute mode ++
    ">\n    <table>\n        <tbody>\n            <tr>\n" ++
    "                <td class=\"litdoc-doc-indent\"" ++
    (if mode = .edit then " contenteditable data-whitespace-only" else "") ++ ">" ++ indent ++
    "</td>\n                <td class=\"litdoc-doc-contents\">" ++
    (if isBlock then content.toMarkup else content) ++
    "</td>\n            </tr>\n        </tbody>\n    </table>\n</div>\n"

/-- The element of one region. -/
def html (mode : EditorMode) (region : Region) : Text :=
  match region.role with
  | .code => codeHtml mode region.firstLine region.content
  | .comment indent isBlock => commentHtml mode indent isBlock region.content
  | .document => documentHtml mode region.content

/-- The elements of all regions, in order. -/
def htmlOf (mode : EditorMode) (regions : List Region) : Text :=
  regions.flatMap (html mode)

end Region

end Literate
