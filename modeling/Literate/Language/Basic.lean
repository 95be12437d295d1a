import Literate.Language.Heredoc

/-!
# Languages

A language is described by the tokens that open comments and the tokens that open texts in which
there are no comments.  Nothing else about it matters here.
-/

namespace Literate

/-- The lexical rules of one language. -/
structure Language where
  name : Text
  /-- File extensions, without the dot. -/
  extensions : List Text := []
  /-- Markers of comments that end with their line. -/
  inlineComments : List Text := []
  /-- Opening and closing tokens of block comments. -/
  blockComments : List (Text × Text) := []
  /-- Quotes of strings that may hold anything but the same quote again. -/
  longStrings : List Text := []
  /-- Quotes of strings with backslash escapes that end with their line at the latest. -/
  shortStrings : List Text := []
  heredocs : List Heredoc := []
  /-- There are backtick template literals with expression holes. -/
  templates : Bool := false
  /-- The whole document is documentation, and is never scanned. -/
  docOnly : Bool := false
  deriving DecidableEq, Repr

namespace Language

/-- The marker with which documentation is written back, if the language has one. -/
def saveMarker? (language : Language) : Option Text :=
  language.inlineComments.head?.filter (!·.isEmpty)

/-- The closing token that belongs to an opening token. -/
def blockCommentClose? (language : Language) (opener : Text) : Option Text :=
  language.blockComments.lookup opener

/-- Two extensions that differ at most in the case of their ASCII letters. -/
def sameExtension (extension other : Text) : Bool :=
  extension.map Char.toLower == other.map Char.toLower

/-- The language claims the extension. -/
def claims (language : Language) (extension : Text) : Bool :=
  language.extensions.any (sameExtension · extension)

end Language

end Literate
