import Literate.Proofs.CommentLines

/-!
# The bodies of here-documents

A here-document of the shell is to be code up to the line that is its delimiter.  But a line closes
it if it only starts with the delimiter: with `lines` behind the line of the opening, and the
delimiter on a line of its own behind them, the token is

  `opener ++ r ++ ['\n'] ++ unlines (lines.takeWhile (!delimiter.isPrefixOf ·)) ++ delimiter`.

So it reaches the closing line exactly if no line before starts with the delimiter, and then nothing
in between is documentation (`heredoc_body_shell`).
-/

namespace Literate

namespace Text

/-- The lines as one text, each of them with a line feed at its end. -/
def unlines (lines : List Text) : Text :=
  lines.flatMap (· ++ ['\n'])

@[simp]
theorem unlines_nil : unlines [] = [] := rfl

theorem unlines_cons (line : Text) (lines : List Text) :
    unlines (line :: lines) = line ++ '\n' :: unlines lines := by
  rw [unlines, List.flatMap_cons, List.append_assoc]
  rfl

theorem exists_unlines_eq (front : Text) (lines : List Text) :
    ∃ kept, front ++ '\n' :: unlines lines = kept ++ ['\n'] := by
  induction lines generalizing front with
  | nil => exact ⟨front, rfl⟩
  | cons line lines ih =>
    obtain ⟨kept, hkept⟩ := ih (front ++ '\n' :: line)
    refine ⟨kept, ?_⟩
    rw [← hkept, unlines_cons, List.append_assoc]
    rfl

theorem isPrefixOf_line_append {token line : Text} (htoken : token.Unbroken) (rest : Text) :
    token.isPrefixOf (line ++ '\n' :: rest) = token.isPrefixOf line := by
  rw [Bool.eq_iff_iff, List.isPrefixOf_iff_prefix, List.isPrefixOf_iff_prefix]
  constructor
  · intro hfront
    by_cases hle : token.length ≤ line.length
    · exact List.prefix_of_prefix_length_le hfront (List.prefix_append ..) hle
    · have hlong : line ++ ['\n'] <+: token := by
        refine List.prefix_of_prefix_length_le ⟨rest, by simp⟩ hfront ?_
        rw [List.length_append, List.length_singleton]
        omega
      have hbreak := htoken '\n' (hlong.subset (by simp))
      simp [isLineBreak] at hbreak
  · intro hfront
    exact hfront.trans (List.prefix_append ..)

/-! ### The search for a line -/

theorem endOfFirst_unbroken_append {token line : Text} (hline : line.Unbroken) (rest : Text) :
    (line ++ rest).endOfFirst (literally ('\n' :: token)) =
      (rest.endOfFirst (literally ('\n' :: token))).map (line.length + ·) := by
  induction line with
  | nil => simp
  | cons c line ih =>
    rw [unbroken_cons] at hline
    have hne : '\n' ≠ c := by
      rintro rfl
      simp [isLineBreak] at hline
    have hnone : literally ('\n' :: token) (c :: (line ++ rest)) = none := by
      rw [literally, if_neg]
      simp [hne]
    rw [List.cons_append, endOfFirst_cons, hnone, Option.none_or, ih hline.2, Option.map_map,
      List.length_cons]
    congr 1
    funext n
    simp only [Function.comp_apply]
    omega

theorem literally_break_cons (token text : Text) :
    literally ('\n' :: token) ('\n' :: text) =
      if token.isPrefixOf text then some (token.length + 1) else none := by
  rw [literally, List.isPrefixOf_cons_cons_self, List.length_cons]

/-- **A search for a line ends at the first line that starts with the text.** -/
theorem endOfFirst_unlines {token : Text} (htoken : token.Unbroken) (rest : Text) :
    ∀ lines : List Text, (∀ line ∈ lines, line.Unbroken) →
      endOfFirst (literally ('\n' :: token)) ('\n' :: (unlines lines ++ (token ++ rest))) =
        some ('\n' :: (unlines (lines.takeWhile (!token.isPrefixOf ·)) ++ token)).length := by
  intro lines
  induction lines with
  | nil =>
    intro _
    have hfront : token.isPrefixOf (token ++ rest) = true :=
      List.isPrefixOf_iff_prefix.2 (List.prefix_append ..)
    rw [unlines_nil, List.nil_append, endOfFirst_cons, literally_break_cons, if_pos hfront]
    rfl
  | cons line lines ih =>
    intro hlines
    have hrest := ih fun other ho => hlines other (List.mem_cons_of_mem _ ho)
    rw [unlines_cons, List.append_assoc, List.cons_append, endOfFirst_cons, literally_break_cons,
      isPrefixOf_line_append htoken]
    cases hfront : token.isPrefixOf line with
    | true =>
      rw [List.takeWhile_cons_of_neg (by simp [hfront])]
      rfl
    | false =>
      rw [List.takeWhile_cons_of_pos (by simp [hfront]), unlines_cons,
        if_neg Bool.false_ne_true, Option.none_or,
        endOfFirst_unbroken_append (hlines line (List.mem_cons_self ..)), hrest, Option.map_some,
        Option.map_some, Option.some.injEq]
      simp only [List.length_cons, List.length_append]
      omega

theorem unlines_takeWhile_isPrefix (token rest : Text) (lines : List Text) :
    unlines (lines.takeWhile (!token.isPrefixOf ·)) ++ token <+:
      unlines lines ++ (token ++ rest) := by
  induction lines with
  | nil => exact List.prefix_append ..
  | cons line lines ih =>
    rw [unlines_cons, List.append_assoc]
    cases hfront : token.isPrefixOf line with
    | true =>
      rw [List.takeWhile_cons_of_neg (by simp [hfront])]
      exact (List.isPrefixOf_iff_prefix.1 hfront).trans (List.prefix_append ..)
    | false =>
      rw [List.takeWhile_cons_of_pos (by simp [hfront]), unlines_cons, List.append_assoc,
        List.prefix_append_right_inj]
      exact List.cons_prefix_cons.2 ⟨rfl, ih⟩

theorem takeWhile_of_not_isPrefix {token : Text} {lines : List Text}
    (h : ∀ line ∈ lines, ¬ token <+: line) : lines.takeWhile (!token.isPrefixOf ·) = lines := by
  rw [List.takeWhile_eq_self_iff]
  intro line hmem
  rw [Bool.not_eq_true', Bool.eq_false_iff]
  exact mt List.isPrefixOf_iff_prefix.1 (h line hmem)

theorem length_unlines_takeWhile_lt {token : Text} {lines : List Text}
    (h : ∃ line ∈ lines, token <+: line) :
    (unlines (lines.takeWhile (!token.isPrefixOf ·)) ++ token).length < (unlines lines).length := by
  induction lines with
  | nil => simp at h
  | cons line lines ih =>
    cases hfront : token.isPrefixOf line with
    | true =>
      have hle := (List.isPrefixOf_iff_prefix.1 hfront).length_le
      rw [List.takeWhile_cons_of_neg (by simp [hfront]), unlines_nil, List.nil_append, unlines_cons,
        List.length_append, List.length_cons]
      omega
    | false =>
      obtain ⟨other, hmem, hother⟩ := h
      have hne : other ≠ line := by
        rintro rfl
        rw [List.isPrefixOf_iff_prefix.2 hother] at hfront
        simp at hfront
      have hlt := ih ⟨other, (List.mem_cons.1 hmem).resolve_left hne, hother⟩
      rw [List.takeWhile_cons_of_pos (by simp [hfront]), unlines_cons, unlines_cons]
      simp only [List.length_append, List.length_cons] at hlt ⊢
      omega

end Text

namespace Heredoc

open Text

theorem closing?_eq_literally {rule : Heredoc} (hindent : rule.stopIndent = []) (delimiter : Text) :
    rule.closing? delimiter = literally (rule.stop ++ (delimiter ++ rule.stopEnd)) := by
  funext text
  by_cases hstop : rule.stop.isPrefixOf text = true
  · obtain ⟨body, rfl⟩ := List.isPrefixOf_iff_prefix.1 hstop
    have hrun : body.takeWhile rule.stopIndent.contains = [] := by
      rw [hindent]
      cases body with
      | nil => rfl
      | cons c body => rfl
    have hfront : (rule.stop ++ (delimiter ++ rule.stopEnd)).isPrefixOf (rule.stop ++ body) =
        (delimiter ++ rule.stopEnd).isPrefixOf body := by
      rw [Bool.eq_iff_iff, List.isPrefixOf_iff_prefix, List.isPrefixOf_iff_prefix,
        List.prefix_append_right_inj]
    rw [closing?, if_pos hstop, literally, hfront]
    dsimp only
    rw [List.drop_left, hrun]
    cases hclose : (delimiter ++ rule.stopEnd).isPrefixOf body with
    | true => simp [hclose, Nat.add_assoc]
    | false => simp [hclose]
  · rw [closing?, if_neg hstop, literally, if_neg]
    intro hfront
    refine hstop (List.isPrefixOf_iff_prefix.2 ?_)
    exact (List.prefix_append ..).trans (List.isPrefixOf_iff_prefix.1 hfront)

end Heredoc

namespace Language

open Draft Text

/-- **A here-document of the shell ends at the first line that starts with its delimiter.** -/
theorem body_of_token?_shell {rule : Heredoc} {opener delimiter r rest body : Text}
    {lines : List Text} {lineStart : Bool} (hindent : rule.stopIndent = []) (hr : r.Unbroken)
    (hlines : ∀ line ∈ lines, line.Unbroken)
    (ht : Language.shell.token? lineStart
      (opener ++ (r ++ '\n' :: (unlines lines ++ (delimiter ++ rest)))) =
        some ⟨.heredoc rule opener delimiter, body⟩) :
    body = r ++ '\n' :: (unlines (lines.takeWhile (!delimiter.isPrefixOf ·)) ++ delimiter) := by
  obtain ⟨hrule, _, _, hopen⟩ := has_of_token? ht
  have horderly := (orderly_of_mem_table (by decide)).heredocs rule hrule
  have hunbroken := (Heredoc.delimiter_of_opening? horderly hopen).1
  have hshell : ∀ rule ∈ Heredoc.shellRules, rule.stop = ['\n'] ∧ rule.stopEnd = [] := by decide
  obtain ⟨hstop, hstopEnd⟩ := hshell rule hrule
  obtain ⟨behind, htext, _, hbody⟩ := token?_eq_some_iff.1 ht
  obtain rfl := List.append_cancel_left htext
  obtain ⟨back, hback⟩ := unlines_takeWhile_isPrefix delimiter rest lines
  have hextent : Extent.heredoc rule delimiter
      (r ++ '\n' :: (unlines lines ++ (delimiter ++ rest))) = (r ++ '\n' ::
        (unlines (lines.takeWhile (!delimiter.isPrefixOf ·)) ++ delimiter)).length := by
    rw [Extent.heredoc, Heredoc.closing?_eq_literally hindent, hstop, hstopEnd, List.append_nil,
      List.singleton_append, endOfFirst_unbroken_append hr, endOfFirst_unlines hunbroken rest lines
      hlines, Option.map_some, Option.getD_some, List.length_append]
  simp only [Opening.extent] at hbody
  generalize unlines (lines.takeWhile (!delimiter.isPrefixOf ·)) ++ delimiter = front
    at hback hextent ⊢
  rw [hbody, hextent, ← hback, ← List.cons_append, ← List.append_assoc, List.take_left]

/-- **A here-document of the shell is code to its closing line exactly if no line before starts with
its delimiter**: it ends at the first line that does. -/
theorem heredoc_body_shell {rule : Heredoc} {a opener delimiter r b body : Text}
    {lines : List Text} (hindent : rule.stopIndent = []) (hr : r.Unbroken)
    (hlines : ∀ line ∈ lines, line.Unbroken)
    (hfinds : Language.shell.Finds
      (a ++ opener ++ r ++ ['\n'] ++ unlines lines ++ delimiter ++ ['\n'] ++ b) a
      ⟨.heredoc rule opener delimiter, body⟩) :
    body = r ++ ['\n'] ++ unlines (lines.takeWhile (!delimiter.isPrefixOf ·)) ++ delimiter ∧
    ((r ++ ['\n'] ++ unlines lines).length ≤ body.length ↔
      ∀ line ∈ lines, ¬ delimiter <+: line) ∧
    ((∀ line ∈ lines, ¬ delimiter <+: line) → ∀ earlier block later,
      classify .shell (a ++ opener ++ r ++ ['\n'] ++ unlines lines ++ delimiter ++ ['\n'] ++ b) =
        earlier ++ block :: later → block.isCode = false →
      ¬ ((a ++ opener ++ r ++ ['\n']).length ≤ (Block.sourceOf earlier).length ∧
        (Block.sourceOf earlier).length <
          (a ++ opener ++ r ++ ['\n'] ++ unlines lines).length)) := by
  have hsource : a ++ opener ++ r ++ ['\n'] ++ unlines lines ++ delimiter ++ ['\n'] ++ b =
      a ++ (opener ++ (r ++ '\n' :: (unlines lines ++ (delimiter ++ '\n' :: b)))) := by simp
  rw [hsource] at hfinds ⊢
  obtain ⟨draft, rest, _, hdraft, htext, ht, hblocks⟩ :=
    exists_draft_of_finds (orderly_of_mem_table (by decide)) hfinds
  rw [← List.append_cancel_left htext] at ht
  have hbody := body_of_token?_shell hindent hr hlines ht
  refine ⟨by rw [hbody]; simp, ⟨?_, ?_⟩, ?_⟩
  · intro hle line hmem hfront
    have hlt := length_unlines_takeWhile_lt ⟨line, hmem, hfront⟩
    rw [hbody] at hle
    simp only [List.length_append, List.length_cons, List.length_nil] at hle hlt
    omega
  · intro hno
    rw [hbody, takeWhile_of_not_isPrefix hno]
    simp only [List.length_append, List.length_cons, List.length_nil]
    omega
  · intro hno earlier block later hsplit hdoc ⟨hle, hlt⟩
    rw [takeWhile_of_not_isPrefix hno] at hbody
    obtain ⟨kept, hkept⟩ := exists_unlines_eq (opener ++ r) lines
    have hlexeme : (Lexeme.token ⟨.heredoc rule opener delimiter, body⟩).text =
        kept ++ '\n' :: delimiter := by
      rw [List.append_cons, ← hkept, hbody]
      simp [Lexeme.text, Token.text, Opening.text]
    have hcodes := codes_of_doc?_eq_none (show draft.doc? _ = none from rfl) (by decide) hlexeme
      (Language.shell.lexemes (lineStartAfter true (a ++ (opener ++ body))) rest)
    rw [← hkept, hdraft] at hcodes
    rw [hblocks] at hsplit
    rcases hcodes.length_le hsplit hdoc with hbefore | hbehind
    · simp only [List.length_append, List.length_cons, List.length_nil] at hbefore hle
      omega
    · simp only [List.length_append, List.length_cons, List.length_nil] at hbehind hlt
      omega

/-- A here-document with lines that hold its delimiter, but do not start with it.  A line in it that
looks like a comment is code. -/
theorem heredoc_body_shell_sort :
    Language.shell.Finds "cat <<E|sort\n E\n# d\nE\n" "cat"
        ⟨.heredoc (Heredoc.shell "<<" .word "" "") " <<E" "E", "|sort\n E\n# d\nE"⟩ ∧
      ¬ ∃ earlier block later,
        classify .shell "cat <<E|sort\n E\n# d\nE\n" = earlier ++ block :: later ∧
        block.isCode = false ∧ "cat <<E|sort\n".length ≤ (Block.sourceOf earlier).length ∧
        (Block.sourceOf earlier).length < "cat <<E|sort\n E\n# d\n".length := by
  have hfinds : Language.shell.Finds ("cat".toList ++ " <<E".toList ++ "|sort".toList ++ ['\n'] ++
      unlines [" E", "# d"] ++ "E".toList ++ ['\n'] ++ []) "cat"
      ⟨.heredoc (Heredoc.shell "<<" .word "" "") " <<E" "E", "|sort\n E\n# d\nE"⟩ := by decide
  refine ⟨hfinds, ?_⟩
  rintro ⟨earlier, block, later, hsplit, hdoc, hinside⟩
  exact (heredoc_body_shell rfl (by decide) (by decide) hfinds).2.2 (by decide) earlier block later
    hsplit hdoc hinside

/-- A here-document that ends before its closing line, at one that only starts with its delimiter.
What looks like a comment in it is documentation. -/
theorem heredoc_ends_early_shell :
    "cat <<EOF\nEOFX\n# d\nEOF\n".toList = "cat".toList ++ " <<EOF".toList ++ [] ++ ['\n'] ++
      unlines ["EOFX", "# d"] ++ "EOF".toList ++ ['\n'] ++ [] ∧
    (∀ line ∈ ["EOFX".toList, "# d".toList], Unbroken line ∧ line ≠ "EOF".toList) ∧
    Language.shell.Finds "cat <<EOF\nEOFX\n# d\nEOF\n" "cat"
      ⟨.heredoc (Heredoc.shell "<<" .word "" "") " <<EOF" "EOF", "\nEOF"⟩ ∧
    ¬ ([] ++ ['\n'] ++ unlines ["EOFX", "# d"]).length ≤ "\nEOF".length ∧
    classify .shell "cat <<EOF\nEOFX\n# d\nEOF\n" =
      [.code "cat <<EOF\nEOFX\n"] ++ .inlineDoc [] "#" true "d\n" :: [.code "EOF\n"] ∧
    "cat <<EOF\n".length ≤ (Block.sourceOf [.code "cat <<EOF\nEOFX\n"]).length ∧
    (Block.sourceOf [.code "cat <<EOF\nEOFX\n"]).length < "cat <<EOF\nEOFX\n# d\n".length := by
  refine ⟨?_, ?_, ?_, ?_, ?_, ?_, ?_⟩
  all_goals decide

end Language

end Literate
