import Literate.Block.Basic
import Literate.Token.Scan

/-!
# Classifying a source text

The lexemes of a source text are taken in one after the other.  Most of them are code.  A block
comment is always documentation; an inline comment is documentation if only blanks stand before it
on its line and its marker is followed by a space or by nothing.  No character is lost:

  `Block.sourceOf (classify language source) = source`.
-/

namespace Literate

/-- A partly classified source text. -/
structure Draft where
  /-- The finished blocks, latest first. -/
  blocks : List Block := []
  /-- The code since the last finished block, back to front, so that its last line comes first. -/
  pending : Text := []
  /-- The last finished block, if any, ended its line. -/
  freshLine : Bool := true
  deriving DecidableEq, Repr

namespace Draft

/-- What the draft was made from. -/
def source (draft : Draft) : Text :=
  Block.sourceOf draft.blocks.reverse ++ draft.pending.reverse

/-- The last line of the pending code, back to front. -/
def currentLine (draft : Draft) : Text :=
  draft.pending.takeWhile (!isLineBreak ·)

/-- The indent of a comment that would start here; none if anything but blanks stands before it on
its line. -/
def indent? (draft : Draft) : Option Text :=
  let line := draft.currentLine
  if (draft.pending.any isLineBreak || draft.freshLine) && Text.isBlank line then
    some line.reverse
  else
    none

def addCode (draft : Draft) (text : Text) : Draft :=
  { draft with pending := text.reverse ++ draft.pending }

/-- The finished blocks, once the pending code is one of them. -/
def flushed (draft : Draft) : List Block :=
  if draft.pending.isEmpty then draft.blocks else .code draft.pending.reverse :: draft.blocks

/-- A block that is documentation ends the pending code. -/
def addDoc (draft : Draft) (block : Block) : Draft where
  blocks := block :: draft.flushed
  pending := []
  freshLine := block.text.isEmpty || (Text.stripTerminator block.text).2.isSome

/-- An inline comment.  Its indent, if it is documentation, is no code. -/
def addInlineComment (draft : Draft) (marker body : Text) : Draft :=
  let spaced := body.head? == some ' '
  match draft.indent? with
  | some indent =>
    if spaced || body.isEmpty || Text.isTerminator body then
      { draft with pending := draft.pending.drop indent.length }.addDoc
        (.inlineDoc indent marker spaced (if spaced then body.drop 1 else body))
    else
      draft.addCode (marker ++ body)
  | none => draft.addCode (marker ++ body)

/-- Take in the next lexeme. -/
def add (draft : Draft) : Lexeme → Draft
  | .plain c => draft.addCode [c]
  | .token token =>
    match token.opening with
    | .blockComment opener _ => draft.addDoc (.blockDoc opener token.text)
    | .inlineComment marker => draft.addInlineComment marker token.body
    | _ => draft.addCode token.text

/-- The blocks, in the order of the source. -/
def finish (draft : Draft) : List Block :=
  draft.flushed.reverse

/-! ## Nothing is lost -/

theorem source_addCode (draft : Draft) (text : Text) :
    (draft.addCode text).source = draft.source ++ text := by
  simp [source, addCode]

theorem sourceOf_flushed (draft : Draft) : Block.sourceOf draft.flushed.reverse = draft.source := by
  unfold flushed
  split
  · next h => simp [source, List.isEmpty_iff.1 h]
  · simp [source, Block.sourceOf, Block.source]

theorem source_addDoc (draft : Draft) (block : Block) :
    (draft.addDoc block).source = draft.source ++ block.source := by
  have := sourceOf_flushed draft
  simp [Block.sourceOf] at this
  simp [source, addDoc, Block.sourceOf, this]

theorem currentLine_append_drop (draft : Draft) :
    draft.currentLine ++ draft.pending.drop draft.currentLine.length = draft.pending := by
  have hfront : draft.currentLine <+: draft.pending := List.takeWhile_prefix _
  exact List.prefix_iff_eq_append.1 hfront

/-- An indent is the end of the pending code. -/
theorem pending_eq_of_indent? {draft : Draft} {indent : Text} (h : draft.indent? = some indent) :
    draft.pending = indent.reverse ++ draft.pending.drop indent.length := by
  unfold indent? at h
  simp only at h
  split at h
  · obtain rfl := Option.some.inj h
    simp [currentLine_append_drop]
  · simp at h

theorem source_addInlineComment (draft : Draft) (marker body : Text) :
    (draft.addInlineComment marker body).source = draft.source ++ (marker ++ body) := by
  unfold addInlineComment
  simp only
  split
  · next indent h =>
    split
    · rw [source_addDoc]
      have hp := congrArg List.reverse (pending_eq_of_indent? h)
      simp only [List.reverse_append, List.reverse_reverse] at hp
      simp only [source, hp, Block.source, List.append_assoc]
      congr 4
      cases body with
      | nil => simp
      | cons c rest => by_cases hc : c = ' ' <;> simp [hc]
    · exact source_addCode ..
  · exact source_addCode ..

/-- **A draft grows by what it takes in.** -/
theorem source_add (draft : Draft) (lexeme : Lexeme) :
    (draft.add lexeme).source = draft.source ++ lexeme.text := by
  cases lexeme with
  | plain c => exact source_addCode ..
  | token token =>
    obtain ⟨opening, body⟩ := token
    cases opening with
    | blockComment => simp [add, source_addDoc, Block.source, Lexeme.text]
    | inlineComment => simp [add, source_addInlineComment, Lexeme.text, Token.text, Opening.text]
    | _ => exact source_addCode ..

end Draft

/-- The blocks of a source text. -/
def classify (language : Language) (source : Text) : List Block :=
  ((language.scan source).foldl Draft.add {}).finish

end Literate
