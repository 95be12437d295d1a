import Literate.Dictionary
import Literate.Error
import Literate.Language.Table
import Literate.Text.CharClass
import Literate.Text.Word

/-!
# Finding the language of a document

A document may name its language in a directive on its first line: a chosen word, a colon and the
name.  If the directive names a language of the table, that is the language.  Otherwise the
extension decides: the table first, and then the extensions that were associated with a language by
hand.
-/

namespace Literate

/-- The word that introduces a directive unless another one is chosen. -/
def defaultDirective : Text :=
  "litdoc-lexer"

/-- The word of the directive and the associated extensions. -/
structure Registry where
  word : Text := defaultDirective
  /-- Language names under extensions in lower case. -/
  aliases : Dictionary Text := []
  deriving DecidableEq, Repr

namespace Registry

/-- An extension without the dot it may start with. -/
def normalize : Text → Text
  | '.' :: extension => extension
  | extension => extension

/-- Associate an extension with a language. -/
def associate (registry : Registry) (extension language : Text) : Registry :=
  { registry with
    aliases := registry.aliases.assign ((normalize extension).map Char.toLower) language }

/-- The name at the front of a text, after the word, a colon and any number of spaces and tabs. -/
def nameAfter? (word text : Text) : Option Text :=
  if (word ++ [':']).isPrefixOf text then
    let rest := (text.drop (word.length + 1)).dropWhile fun c => c == ' ' || c == '\t'
    let name := rest.takeWhile isNameCharacter
    if name.isEmpty then none else some name
  else
    none

/-- The name of the leftmost directive that starts on the first line. -/
def directiveName? (word : Text) : Text → Option Text
  | [] => nameAfter? word []
  | c :: rest =>
    (nameAfter? word (c :: rest)).or <|
      if isLineBreak c then none else directiveName? word rest

/-- The directive of a source text. -/
def directive? (registry : Registry) (source : Text) : Option Text :=
  directiveName? registry.word source

/-- The language associated with an extension. -/
def aliased? (registry : Registry) (extension : Text) : Option Language :=
  (registry.aliases.get? (extension.map Char.toLower)).bind Language.named?

/-- The language for a directive, if there is one, and an extension. -/
def resolve (registry : Registry) (directive : Option Text) (extension : Text) :
    Except Error Language :=
  let extension := normalize extension
  let found := (directive.bind Language.named?).or <|
    (Language.claiming? extension).or (registry.aliased? extension)
  match found with
  | some language => .ok language
  | none => .error (.unresolved directive extension)

/-- The language of a source text with an extension. -/
def resolveSource (registry : Registry) (source extension : Text) : Except Error Language :=
  registry.resolve (registry.directive? source) extension

end Registry

end Literate
