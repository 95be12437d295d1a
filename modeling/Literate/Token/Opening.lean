import Literate.Language.Basic
import Literate.Token.Extent

/-!
# Openings

A token of a source text starts with an opening: a comment marker, a quote, a here-document opening
or a backtick.  At each place of the text at most one opening counts.  Longer-lived openings are
tried first, because a short one may be the start of a long one, and among equals the order of the
language's lists decides.
-/

namespace Literate

/-- How a token starts. -/
inductive Opening where
  | blockComment (opener closer : Text)
  | longString (delimiter : Text)
  | heredoc (rule : Heredoc) (opener delimiter : Text)
  | inlineComment (marker : Text)
  | shortString (quote : Text)
  | template
  deriving DecidableEq, Repr

namespace Opening

/-- The characters of the opening. -/
def text : Opening → Text
  | blockComment opener _ => opener
  | longString delimiter => delimiter
  | heredoc _ opener _ => opener
  | inlineComment marker => marker
  | shortString quote => quote
  | template => ['\x60']

/-- How many characters of the text after the opening belong to its token. -/
def extent : Opening → Text → Nat
  | blockComment opener closer => Extent.blockComment opener closer
  | longString delimiter => Extent.longString delimiter
  | heredoc rule _ delimiter => Extent.heredoc rule delimiter
  | inlineComment marker => Extent.inlineComment (marker.getLast? == some '\\')
  | shortString quote => Extent.shortString quote
  | template => Extent.template

end Opening

namespace Language

def blockCommentOpening? (language : Language) (text : Text) : Option Opening :=
  (language.blockComments.find? fun (opener, _) => Text.startsWith opener text).map
    fun (opener, closer) => .blockComment opener closer

def longStringOpening? (language : Language) (text : Text) : Option Opening :=
  (language.longStrings.find? (Text.startsWith · text)).map .longString

def heredocOpening? (language : Language) (lineStart : Bool) (text : Text) : Option Opening :=
  language.heredocs.findSome? fun rule =>
    (rule.opening? lineStart text).map fun (opener, delimiter) => .heredoc rule opener delimiter

def inlineCommentOpening? (language : Language) (text : Text) : Option Opening :=
  (language.inlineComments.find? (Text.startsWith · text)).map .inlineComment

def shortStringOpening? (language : Language) (text : Text) : Option Opening :=
  (language.shortStrings.find? (Text.startsWith · text)).map .shortString

def templateOpening? (language : Language) (text : Text) : Option Opening :=
  if language.templates && text.head? == some '\x60' then some .template else none

/-- The opening at the front of a text.  `lineStart` says that the text before ended a line. -/
def opening? (language : Language) (lineStart : Bool) (text : Text) : Option Opening :=
  (language.blockCommentOpening? text).or <|
  (language.longStringOpening? text).or <|
  (language.heredocOpening? lineStart text).or <|
  (language.inlineCommentOpening? text).or <|
  (language.shortStringOpening? text).or <|
  language.templateOpening? text

/-- **An opening stands at the front of its text**, and it is not empty. -/
theorem opening?_isPrefix {language : Language} {lineStart : Bool} {text : Text}
    {opening : Opening} (h : language.opening? lineStart text = some opening) :
    opening.text ≠ [] ∧ opening.text <+: text := by
  simp only [opening?, Option.or_eq_some_iff] at h
  rcases h with h | ⟨_, h | ⟨_, h | ⟨_, h | ⟨_, h | ⟨_, h⟩⟩⟩⟩⟩
  · obtain ⟨⟨o, c⟩, hp, rfl⟩ := Option.map_eq_some_iff.1 h
    have hstart := List.find?_some hp
    exact Text.startsWith_iff.1 hstart
  · obtain ⟨d, hp, rfl⟩ := Option.map_eq_some_iff.1 h
    have hstart := List.find?_some hp
    exact Text.startsWith_iff.1 hstart
  · obtain ⟨rule, _, h⟩ := List.exists_of_findSome?_eq_some h
    obtain ⟨⟨o, d⟩, hp, rfl⟩ := Option.map_eq_some_iff.1 h
    exact Heredoc.opening?_isPrefix hp
  · obtain ⟨d, hp, rfl⟩ := Option.map_eq_some_iff.1 h
    have hstart := List.find?_some hp
    exact Text.startsWith_iff.1 hstart
  · obtain ⟨d, hp, rfl⟩ := Option.map_eq_some_iff.1 h
    have hstart := List.find?_some hp
    exact Text.startsWith_iff.1 hstart
  · unfold templateOpening? at h
    split at h
    · next ht =>
      simp only [Bool.and_eq_true, beq_iff_eq] at ht
      obtain rfl := Option.some.inj h
      obtain ⟨rest, rfl⟩ := List.head?_eq_some_iff.1 ht.2
      exact ⟨by simp [Opening.text], by simp [Opening.text]⟩
    · simp at h

end Language

end Literate
