import Literate.Proofs.Comments
import Literate.Proofs.Crossings
import Literate.Proofs.Locality

/-!
# Code before a comment that is written anew

A block of code stands before a comment, and what follows the marker of the comment is exchanged.
The scan has a border before the marker, and nearly always it keeps it: what closes a token before
the marker, closes it before any other comment with the same indent and marker, too.  The exception
is a short string that never closes and goes back to an escaped pair.  With another text behind the
marker it may close, and then it swallows the comment (`border_or_unclosed`).

Such a string has escaped every line break up to the end of the text.  So the comment is the last
line, and it is all that can have changed.
-/

namespace Literate

namespace Extent

open Text

variable {q : Char}

/-! ### Short strings that never close -/

/-- A string that never closes has escaped all line breaks, so a comment would not end either. -/
theorem inlineComment_of_firstClose?_eq_none {text : Text} (h : firstClose? q text = none)
    (afterBackslash : Bool) : inlineComment afterBackslash text = text.length := by
  fun_induction firstClose? q text generalizing afterBackslash with
  | case1 => rfl
  | case2 rest ih =>
    rw [Option.map_eq_none_iff] at h
    rw [inlineComment_cons (by simp [CutsPair])]
    simp [inlineComment, ih h, isLineBreak]
    omega
  | case3 c rest hpair ih =>
    rw [Option.map_eq_none_iff] at h
    have hcut : ¬ CutsPair [c] rest := by
      rintro ⟨hc, hhead⟩
      obtain ⟨tail, rfl⟩ := List.head?_eq_some_iff.1 hhead
      exact hpair tail (by simpa using hc) rfl
    have hback : isLineBreak '\\' = false := rfl
    rw [inlineComment_cons (by simp [CutsPair]), hback, if_neg (by simp), inlineComment_cons hcut,
      ih h, ih h, List.length_cons, List.length_cons]
    simp only [BEq.rfl, if_true]
    split <;> omega
  | case4 rest => simp at h
  | case5 => simp at h
  | case6 c rest hpair hescaped hcrlf hc ih =>
    rw [Option.map_eq_none_iff] at h
    obtain ⟨_, hb⟩ : c ≠ q ∧ isLineBreak c = false := by
      simpa using hc
    have hcut : ¬ CutsPair [c] rest := by
      rintro ⟨hr, _⟩
      obtain rfl : c = '\r' := by simpa using hr
      simp [isLineBreak] at hb
    rw [inlineComment_cons hcut, hb, if_neg (by simp), ih h, List.length_cons, Nat.add_comm]

/-- **A terminator behind a string that never closes** closes it, or is escaped: then the string
goes back to it if it is a pair, and otherwise to where it went back before. -/
theorem walk_append_ending {text : Text} (h : firstClose? q text = none)
    {ending : LineEnding} (hcut : ¬ CutsPair text ending.text) :
    firstClose? q (text ++ ending.text) = some (text ++ ending.text).length ∨
      firstClose? q (text ++ ending.text) = none ∧
        (lastEscapedPair? (text ++ ending.text) = some (text ++ ending.text).length ∨
          lastEscapedPair? (text ++ ending.text) = lastEscapedPair? text) := by
  fun_induction firstClose? q text with
  | case1 =>
    left
    cases ending <;> simp [LineEnding.text, firstClose?, isLineBreak]
  | case2 rest ih =>
    rw [Option.map_eq_none_iff] at h
    simp only [List.cons_append, firstClose?, lastEscapedPair?, List.length_cons]
    rcases ih h fun hc => hcut (((hc.cons _).cons _).cons _) with hclose | ⟨hclose, hpair | hpair⟩
    · exact Or.inl (by simpa [hclose] using by omega)
    · exact Or.inr ⟨by simp [hclose], Or.inl (by simpa [hpair] using by omega)⟩
    · exact Or.inr ⟨by simp [hclose], Or.inr (by rw [hpair])⟩
  | case3 c rest hpair ih =>
    rw [Option.map_eq_none_iff] at h
    have hc := not_cutsPair_singleton (fun tail hc ht => hpair tail hc ht)
      fun hc => hcut (hc.cons '\\')
    have hc' : ¬ CutsPair [c] rest := by
      rintro ⟨hr, hhead⟩
      obtain ⟨tail, rfl⟩ := List.head?_eq_some_iff.1 hhead
      exact hpair tail (by simpa using hr) rfl
    simp only [List.cons_append, firstClose?_escape hc, lastEscapedPair?_escape hc,
      lastEscapedPair?_escape hc', List.length_cons]
    rcases ih h fun hc => hcut ((hc.cons _).cons _) with hclose | ⟨hclose, hpair | hpair⟩
    · exact Or.inl (by simpa [hclose] using by omega)
    · exact Or.inr ⟨by simp [hclose], Or.inl (by simpa [hpair] using by omega)⟩
    · exact Or.inr ⟨by simp [hclose], Or.inr (by rw [hpair])⟩
  | case4 rest => simp at h
  | case5 => simp at h
  | case6 c rest hpair hescaped hcrlf hc ih =>
    rw [Option.map_eq_none_iff] at h
    by_cases hback : c = '\\'
    · -- A backslash at the end escapes the terminator.
      subst hback
      have hrest : rest = [] := by
        cases rest with
        | nil => rfl
        | cons d rest => exact (hescaped d rest rfl rfl).elim
      subst hrest
      right
      cases ending with
      | lf => exact ⟨rfl, Or.inr rfl⟩
      | crlf => exact ⟨rfl, Or.inl rfl⟩
      | cr => exact ⟨rfl, Or.inr rfl⟩
    · have hc' := not_cutsPair_singleton hcrlf hcut
      simp only [List.cons_append, firstClose?_cons hback hc', if_neg hc,
        lastEscapedPair?_cons hback, List.length_cons]
      rcases ih h fun hc => hcut (hc.cons _) with hclose | ⟨hclose, hpair | hpair⟩
      · exact Or.inl (by simp [hclose, Nat.add_comm])
      · exact Or.inr ⟨by simp [hclose], Or.inl (by simp [hpair, Nat.add_comm])⟩
      · exact Or.inr ⟨by simp [hclose], Or.inr (by rw [hpair])⟩

theorem shortString_append_ending (hescape : q ≠ '\\') (hbreak : isLineBreak q = false)
    {text : Text} (h : firstClose? q text = none) {n : Nat} (hpair : lastEscapedPair? text = some n)
    {ending : LineEnding} (hcut : ¬ CutsPair text ending.text) :
    shortString [q] (text ++ ending.text) = (text ++ ending.text).length ∨
      shortString [q] (text ++ ending.text) = n := by
  rw [shortString_eq hescape hbreak]
  rcases walk_append_ending h hcut with hclose | ⟨hclose, hlast | hlast⟩
  · exact Or.inl (by rw [hclose]; rfl)
  · exact Or.inl (by rw [hclose, hlast]; rfl)
  · exact Or.inr (by rw [hclose, hlast, hpair]; rfl)

theorem walks_on {marker : Text} (h : marker.Solid) (front : Text) :
    (front ++ marker).getLast? ≠ some '\\' ∧ ∀ rest, ¬ CutsPair (front ++ marker) rest := by
  rw [List.getLast?_append_of_ne_nil _ h.1]
  refine ⟨fun hlast => (h.2 _ (List.mem_of_getLast? hlast)).2.2 rfl, ?_⟩
  rintro rest ⟨hlast, _⟩
  rw [List.getLast?_append_of_ne_nil _ h.1] at hlast
  simpa [isLineBreak] using h.unbroken _ (List.mem_of_getLast? hlast)

theorem firstClose?_marker_ending {front marker : Text} (hmarker : marker.Solid)
    (ending : LineEnding) : firstClose? q (front ++ (marker ++ ending.text)) ≠ none := by
  obtain ⟨hlast, hcut⟩ := walks_on hmarker front
  rw [← List.append_assoc, firstClose?_append hlast (hcut _)]
  intro hclose
  rw [Option.or_eq_none_iff, Option.map_eq_none_iff] at hclose
  cases ending <;> simp [LineEnding.text, firstClose?, isLineBreak] at hclose

theorem walk_marker_space (hspace : q ≠ ' ') (front : Text) {marker : Text}
    (hmarker : marker.Solid) :
    firstClose? q (front ++ (marker ++ [' '])) = firstClose? q (front ++ marker) ∧
      lastEscapedPair? (front ++ (marker ++ [' '])) = lastEscapedPair? (front ++ marker) := by
  obtain ⟨hlast, hcut⟩ := walks_on hmarker front
  rw [← List.append_assoc, firstClose?_append hlast (hcut _),
    lastEscapedPair?_append hlast (hcut _)]
  simp [firstClose?, lastEscapedPair?, isLineBreak, hspace.symm]

theorem lastEscapedPair?_of_lt (hescape : q ≠ '\\') (hbreak : isLineBreak q = false)
    {text : Text} (hclose : firstClose? q text = none) (hlt : shortString [q] text < text.length) :
    lastEscapedPair? text = some (shortString [q] text) := by
  rw [shortString_eq hescape hbreak, hclose, Option.none_or] at hlt ⊢
  cases hpair : lastEscapedPair? text with
  | some n => rfl
  | none =>
    rw [hpair, Option.getD_none] at hlt
    omega

/-- **A comment in a string that never closes**, and goes back before it: written anew, the comment
is taken in whole by the string, if the string does not go back before it again. -/
theorem shortString_rewritten (hq : Solid [q]) {front marker text : Text} (hmarker : marker.Solid)
    {spaced : Bool} (hbare : spaced = false → text = [] ∨ text.isTerminator = true)
    (hclose : firstClose? q (front ++ (marker ++ ((if spaced then [' '] else []) ++ text))) = none)
    (hshort : shortString [q] (front ++ (marker ++ ((if spaced then [' '] else []) ++ text))) ≤
      front.length) {ending : LineEnding}
    (hlong : front.length < shortString [q] (front ++ (marker ++ ' ' ::
      (text.stripTerminator.1 ++ (text.stripTerminator.2.getD ending).text)))) :
    shortString [q] (front ++ (marker ++ ' ' ::
        (text.stripTerminator.1 ++ (text.stripTerminator.2.getD ending).text))) =
      (front ++ (marker ++ ' ' ::
        (text.stripTerminator.1 ++ (text.stripTerminator.2.getD ending).text))).length := by
  obtain ⟨hbreak, hblank, hescape⟩ := hq.2 q (List.mem_singleton_self q)
  by_cases hends : text.EndsLine
  · -- then nothing has changed, or the string would have closed
    exfalso
    obtain ⟨line, ending', rfl, hline⟩ := exists_ending hends
    rw [stripTerminator_append hline] at hlong
    cases spaced with
    | true =>
      simp only [if_true, List.singleton_append] at hshort
      exact absurd hlong (Nat.not_lt.2 hshort)
    | false =>
      obtain ⟨ending'', hterminator⟩ := Block.isTerminator_iff.1
        ((hbare rfl).resolve_left hends.ne_nil)
      rw [hterminator] at hclose
      exact firstClose?_marker_ending hmarker ending'' hclose
  · rw [stripTerminator_of_not_endsLine hends] at hlong ⊢
    have hpair := lastEscapedPair?_of_lt hescape hbreak hclose (by
      have := List.length_pos_iff.2 hmarker.1
      simp only [List.length_append] at hshort ⊢
      omega)
    generalize shortString [q] (front ++ (marker ++ ((if spaced then [' '] else []) ++ text))) =
      n at hshort hpair
    have hspaced : firstClose? q (front ++ (marker ++ ' ' :: text)) = none ∧
        lastEscapedPair? (front ++ (marker ++ ' ' :: text)) = some n := by
      cases spaced with
      | true => exact ⟨hclose, hpair⟩
      | false =>
        obtain rfl : text = [] := by
          refine (hbare rfl).resolve_right fun hterminator => hends ?_
          obtain ⟨ending', rfl⟩ := Block.isTerminator_iff.1 hterminator
          exact endsLine_ending ending'
        have hspace : q ≠ ' ' := by
          rintro rfl
          exact absurd hblank (by decide)
        simp only [Bool.false_eq_true, if_false, List.append_nil] at hclose hpair
        obtain ⟨hsame, hsame'⟩ := walk_marker_space hspace front hmarker
        exact ⟨hsame.trans hclose, hsame'.trans hpair⟩
    have hcut : ¬ CutsPair (front ++ (marker ++ ' ' :: text)) ending.text := by
      rintro ⟨hr, _⟩
      have hr' : (front ++ (marker ++ [' ']) ++ text).getLast? = some '\r' := by simpa using hr
      by_cases htext : text = []
      · simp [htext] at hr'
      · rw [List.getLast?_append_of_ne_nil _ htext] at hr'
        exact hends ⟨'\r', hr', rfl⟩
    have hassoc : front ++ (marker ++ ' ' :: (text ++ ending.text)) =
        front ++ (marker ++ ' ' :: text) ++ ending.text := by simp
    rw [Option.getD_none, hassoc] at hlong ⊢
    rcases shortString_append_ending hescape hbreak hspaced.1 hspaced.2 hcut with hwhole | hback
    · exact hwhole
    · omega

end Extent

/-! ### Searches -/

namespace Text

variable {reading : Text → Option Nat}

/-- **A search over a line break** ends before it, and does not see what stands behind it; or it
goes on from there. -/
theorem Nearsighted.endOfFirst_cases (h : Nearsighted reading) {b : Char}
    (hb : isLineBreak b = true) (rest : Text) :
    ∀ (text : Text) (n : Nat), (text ++ b :: rest).endOfFirst reading = some n →
      (∀ rest', (text ++ b :: rest').endOfFirst reading = some n) ∨
      ∃ m, endOfFirst reading (b :: rest) = some m ∧ n = text.length + m ∧
        ∀ rest', endOfFirst reading (b :: rest') = some m →
          (text ++ b :: rest').endOfFirst reading = some n := by
  intro text
  induction text with
  | nil => exact fun n hn => Or.inr ⟨n, hn, by simp, fun _ hrest' => hrest'⟩
  | cons c text ih =>
    intro n hn
    simp only [List.cons_append, endOfFirst_cons reading c, h.sight c text _ hb] at hn ⊢
    rcases Option.or_eq_some_iff.1 hn with hread | ⟨hread, hn⟩
    · exact Or.inl fun rest' => by rw [hread, Option.some_or]
    · obtain ⟨k, hk, rfl⟩ := Option.map_eq_some_iff.1 hn
      simp only [hread, Option.none_or]
      rcases ih k hk with hsame | ⟨m, hm, rfl, hsame⟩
      · exact Or.inl fun rest' => by rw [hsame rest', Option.map_some]
      · refine Or.inr ⟨m, hm, by rw [List.length_cons]; omega, fun rest' hrest' => ?_⟩
        rw [hsame rest' hrest', Option.map_some]

end Text

namespace Heredoc

open Text

variable {rule : Heredoc}

theorem take_of_closing? {delimiter text : Text} {n : Nat}
    (h : rule.closing? delimiter text = some n) :
    ∃ run : Text, (∀ c ∈ run, c ∈ rule.stopIndent) ∧
      text.take n = rule.stop ++ run ++ delimiter ++ rule.stopEnd := by
  rw [closing?, Option.ite_none_right_eq_some] at h
  obtain ⟨m, hm, rfl⟩ := Option.map_eq_some_iff.1 h.2
  obtain ⟨body, rfl⟩ := List.isPrefixOf_iff_prefix.1 h.1
  rw [List.drop_left] at hm
  have hlt := List.mem_range.1 (List.mem_reverse.1 (List.mem_of_find?_eq_some hm))
  have hfound := List.find?_some hm
  obtain ⟨tail, htail⟩ := List.isPrefixOf_iff_prefix.1 hfound
  have hrun := le_length_takeWhile.1 (Nat.lt_succ_iff.1 hlt)
  refine ⟨body.take m, fun c hc => by simpa using hrun.2 c hc, ?_⟩
  have htext : rule.stop ++ body =
      rule.stop ++ body.take m ++ delimiter ++ rule.stopEnd ++ tail := by
    conv_lhs => rw [← List.take_append_drop m body, ← htail]
    simp
  have hlength := List.length_take_of_le hrun.1
  rw [htext]
  exact List.take_left' (by simp only [List.length_append, hlength])

/-- **A closing that ends in an indent**, or at the line break before it, does not see what stands
behind the indent, if the indent ends there. -/
theorem closing?_indent (hstop : rule.stop = ['\n']) (hstopEnd : rule.stopEnd = [])
    (hstopIndent : rule.stopIndent.isBlank = true) {delimiter indent : Text} {c : Char}
    {rest : Text} {n : Nat} (hindent : indent.isBlank = true) (hc : isBlank c = false)
    (h : rule.closing? delimiter ('\n' :: (indent ++ c :: rest)) = some n)
    (hle : n ≤ indent.length + 1) (rest' : Text) :
    rule.closing? delimiter ('\n' :: (indent ++ c :: rest')) = some n := by
  have hblank : ∀ {text : Text}, text.isBlank = true → ∀ d ∈ text, isBlank d = true :=
    fun h => List.all_eq_true.1 h
  obtain ⟨n', hn', hsame⟩ := rule.local_closing? delimiter ('\n' :: indent) (c :: rest) (c :: rest')
    n h hle
  rw [List.cons_append] at hn'
  have htaken : ∀ {rest : Text} {n : Nat}, rule.closing? delimiter ('\n' :: rest) = some n →
      ∃ run m, n = m + 1 ∧ (∀ d ∈ run, isBlank d = true) ∧ rest.take m = run ++ delimiter := by
    intro rest n hn
    obtain ⟨run, hrun, htake⟩ := take_of_closing? hn
    rw [hstop, hstopEnd, List.append_nil, List.append_assoc, List.singleton_append] at htake
    cases n with
    | zero => simp at htake
    | succ m => exact ⟨run, m, rfl, fun d hd => hblank hstopIndent d (hrun d hd),
        (List.cons.inj htake).2⟩
  obtain ⟨run, m, rfl, _, htake⟩ := htaken h
  obtain ⟨run', m', rfl, hrun', htake'⟩ := htaken hn'
  -- The delimiter is blank, because it stood in the indent.
  have hdelimiter : ∀ d ∈ delimiter, isBlank d = true := by
    intro d hd
    rw [List.take_append_of_le_length (by omega)] at htake
    have hmem : d ∈ indent.take m := htake ▸ List.mem_append_right run hd
    exact hblank hindent d (List.mem_of_mem_take hmem)
  have hle' : m' ≤ indent.length := by
    by_contra hlong
    have hmem : c ∈ (indent ++ c :: rest').take m' := by
      obtain ⟨k, rfl⟩ : ∃ k, m' = indent.length + (k + 1) := ⟨m' - indent.length - 1, by omega⟩
      rw [List.take_length_add_append, List.take_succ_cons]
      simp
    rw [htake', List.mem_append] at hmem
    rw [hmem.elim (hrun' c) (hdelimiter c)] at hc
    simp at hc
  rw [hsame (Nat.succ_le_succ hle')] at hn'
  exact hn'

end Heredoc

namespace Draft

theorem eq_token_of_doc? {draft : Draft} {lexeme : Lexeme} {indent marker text : Text}
    {spaced : Bool} (h : draft.doc? lexeme = some (.inlineDoc indent marker spaced text)) :
    lexeme = .token ⟨.inlineComment marker, (if spaced then [' '] else []) ++ text⟩ := by
  rcases doc?_eq_some h with ⟨_, _, _, _, hblock⟩ | ⟨_, _, body, rfl, _, hbody⟩
  · simp at hblock
  · rcases hbody with ⟨_, rfl, hblock⟩ | ⟨_, hblock⟩
    · obtain ⟨_, rfl, rfl, rfl⟩ := Block.inlineDoc.inj hblock
      rfl
    · obtain ⟨_, rfl, rfl, rfl⟩ := Block.inlineDoc.inj hblock
      rfl

end Draft

namespace Language

open Draft Text

variable {language : Language} {lineStart : Bool} {marker indent : Text}

/-! ### Tokens that end before the marker -/

theorem heredocs_of_mem_table (h : language ∈ table) (hblock : language.blockComments = []) :
    ∀ rule ∈ language.heredocs,
      rule.stop = ['\n'] ∧ rule.stopEnd = [] ∧ rule.stopIndent.isBlank = true :=
  (by decide : ∀ language ∈ table, language.blockComments = [] → ∀ rule ∈ language.heredocs,
    rule.stop = ['\n'] ∧ rule.stopEnd = [] ∧ rule.stopIndent.isBlank = true) language h hblock

theorem endOfFirst_indent {reading : Text → Option Nat} (hnear : Nearsighted reading) {b c : Char}
    (hb : isLineBreak b = true) {r : Text}
    (hread : ∀ n r', n ≤ indent.length + 1 → reading (b :: (indent ++ c :: r)) = some n →
      reading (b :: (indent ++ c :: r')) = some n)
    (hindent : ∀ front back m, indent = front ++ back → reading (back ++ c :: r) = some m →
      back.length < m) {front : Text} {n : Nat}
    (hn : (front ++ b :: (indent ++ c :: r)).endOfFirst reading = some n)
    (hle : n ≤ front.length + (indent.length + 1)) (r' : Text) :
    (front ++ b :: (indent ++ c :: r')).endOfFirst reading = some n := by
  rcases hnear.endOfFirst_cases hb _ front n hn with hsame | ⟨m, hm, rfl, hsame⟩
  · exact hsame _
  · refine hsame _ ?_
    rw [endOfFirst_cons, Option.or_eq_some_iff] at hm
    rw [endOfFirst_cons]
    rcases hm with hm | ⟨_, hm⟩
    · rw [hread m r' (by omega) hm, Option.some_or]
    · -- a reading that starts in the indent does not end in it
      obtain ⟨k, hk, rfl⟩ := Option.map_eq_some_iff.1 hm
      obtain ⟨before, back, j, htext, hj, rfl⟩ := exists_of_endOfFirst _ k hk
      have hpos := hnear.pos hj
      rcases List.append_eq_append_iff.1 htext with ⟨middle, rfl, _⟩ | ⟨middle, rfl, rfl⟩
      · rw [List.length_append] at hle
        omega
      · have := hindent before middle j rfl hj
        rw [List.length_append] at hle
        omega

theorem literally_indent {token : Text} (h : token.Solid) {b c : Char} (hb : isLineBreak b = true)
    (hindent : indent.isBlank = true) {front r : Text} {n : Nat}
    (hn : (front ++ b :: (indent ++ c :: r)).endOfFirst (literally token) = some n)
    (hle : n ≤ front.length + (indent.length + 1)) (r' : Text) :
    (front ++ b :: (indent ++ c :: r')).endOfFirst (literally token) = some n := by
  refine endOfFirst_indent (nearsighted_literally h) hb ?_ ?_ hn hle r'
  · intro n r' _ hread
    rw [literally_break h hb] at hread
    simp at hread
  · intro before back m hback hread
    rw [literally, Option.ite_none_right_eq_some] at hread
    obtain ⟨hfront, rfl⟩ : _ ∧ token.length = m := ⟨hread.1, Option.some.inj hread.2⟩
    by_contra hshort
    obtain ⟨d, token', rfl, _, hd, _⟩ := h.exists_cons
    have hfront' := List.prefix_of_prefix_length_le (List.isPrefixOf_iff_prefix.1 hfront)
      (List.prefix_append back (c :: r)) (Nat.le_of_not_lt hshort)
    have hmem : d ∈ indent := by
      rw [hback]
      exact List.mem_append_right _ (hfront'.subset (List.mem_cons_self ..))
    rw [List.all_eq_true.1 hindent d hmem] at hd
    simp at hd

theorem closing_indent {rule : Heredoc} (horderly : rule.Orderly) (hstop : rule.stop = ['\n'])
    (hstopEnd : rule.stopEnd = []) (hstopIndent : rule.stopIndent.isBlank = true)
    {delimiter : Text} (hdelimiter : delimiter.Unbroken) {b c : Char} (hb : isLineBreak b = true)
    (hc : isBlank c = false) (hindent : indent.isBlank = true) {front r : Text} {n : Nat}
    (hn : (front ++ b :: (indent ++ c :: r)).endOfFirst (rule.closing? delimiter) = some n)
    (hle : n ≤ front.length + (indent.length + 1)) (r' : Text) :
    (front ++ b :: (indent ++ c :: r')).endOfFirst (rule.closing? delimiter) = some n := by
  have hnear := Heredoc.nearsighted_closing? horderly hdelimiter
  have hhead : ∀ d (rest : Text) m, rule.closing? delimiter (d :: rest) = some m → d = '\n' := by
    intro d rest m hread
    have hfront := (Heredoc.closing?_length hread).1
    rw [hstop] at hfront
    exact (List.cons_prefix_cons.1 hfront).1.symm
  refine endOfFirst_indent hnear hb ?_ ?_ hn hle r'
  · intro n r' hle hread
    obtain rfl := hhead b _ n hread
    exact Heredoc.closing?_indent hstop hstopEnd hstopIndent hindent hc hread hle r'
  · intro before back m hback hread
    cases back with
    | nil => exact hnear.pos hread
    | cons d back =>
      obtain rfl := hhead d _ m hread
      have hmem : '\n' ∈ indent := by simp [hback]
      exact absurd (List.all_eq_true.1 hindent _ hmem) (by decide)

theorem getD_endOfFirst_marker {reading : Text → Option Nat} {c : Char}
    (hsame : ∀ {b : Char} {front r : Text} {n : Nat}, isLineBreak b = true →
      endOfFirst reading (front ++ b :: (indent ++ c :: r)) = some n →
      n ≤ front.length + (indent.length + 1) →
      ∀ r', endOfFirst reading (front ++ b :: (indent ++ c :: r')) = some n)
    {body : Text} (hends : body.EndsLine) {r : Text}
    (hle : (endOfFirst reading (body ++ (indent ++ c :: r))).getD
      (body ++ (indent ++ c :: r)).length ≤ (body ++ indent).length) (r' : Text) :
    (endOfFirst reading (body ++ (indent ++ c :: r'))).getD (body ++ (indent ++ c :: r')).length =
      (endOfFirst reading (body ++ (indent ++ c :: r))).getD
        (body ++ (indent ++ c :: r)).length := by
  obtain ⟨b, hlast, hb⟩ := hends
  obtain ⟨front, rfl⟩ := List.getLast?_eq_some_iff.1 hlast
  have hshape : ∀ r : Text, front ++ [b] ++ (indent ++ c :: r) =
      front ++ b :: (indent ++ c :: r) := by simp
  rw [hshape] at hle ⊢
  rw [hshape]
  simp only [List.length_append, List.length_cons, List.length_nil] at hle
  cases hn : endOfFirst reading (front ++ b :: (indent ++ c :: r)) with
  | none =>
    rw [hn, Option.getD_none] at hle
    omega
  | some n =>
    rw [hn, Option.getD_some] at hle
    rw [hsame hb hn (by omega) r']
    rfl

/-- **Tokens that end before the marker of a comment** end there whatever the comment says, short
strings that never close apart. -/
theorem extent_marker (h : language ∈ table) (hblock : language.blockComments = [])
    (hm : marker ∈ language.inlineComments) {opening : Opening} (ho : language.Has opening)
    {body r : Text} (hends : body.EndsLine) (hindent : indent.isBlank = true)
    (hle : opening.extent (body ++ (indent ++ (marker ++ r))) ≤ (body ++ indent).length)
    (r' : Text) :
    opening.extent (body ++ (indent ++ (marker ++ r'))) =
        opening.extent (body ++ (indent ++ (marker ++ r))) ∨
      ∃ q, opening = .shortString [q] ∧
        Extent.firstClose? q (body ++ (indent ++ (marker ++ r))) = none := by
  have horderly := orderly_of_mem_table h
  obtain ⟨c, tail, rfl, hbreak, hc, _⟩ := (horderly.inlineComments _ hm).exists_cons
  have hcut : ∀ r : Text, ¬ CutsPair (body ++ indent) (c :: tail ++ r) := by
    rintro r ⟨_, hhead⟩
    obtain rfl : c = '\n' := by simpa using hhead
    simp [isLineBreak] at hbreak
  have hassoc : ∀ r : Text, body ++ (indent ++ (c :: tail ++ r)) =
      body ++ indent ++ (c :: tail ++ r) := fun r => (List.append_assoc ..).symm
  cases opening with
  | blockComment opener closer =>
    have hmem : (opener, closer) ∈ language.blockComments := ho
    rw [hblock] at hmem
    simp at hmem
  | longString delimiter =>
    exact Or.inl (getD_endOfFirst_marker (fun hb hn hle r' =>
      literally_indent (horderly.longStrings _ ho) hb hindent hn hle r') hends hle (tail ++ r'))
  | heredoc rule opener delimiter =>
    obtain ⟨hrule, start, source, hopen⟩ := ho
    obtain ⟨hstop, hstopEnd, hstopIndent⟩ := heredocs_of_mem_table h hblock rule hrule
    have hunbroken := (Heredoc.delimiter_of_opening? (horderly.heredocs _ hrule) hopen).1
    exact Or.inl (getD_endOfFirst_marker (fun hb hn hle r' =>
      closing_indent (horderly.heredocs _ hrule) hstop hstopEnd hstopIndent hunbroken hb hc hindent
        hn hle r') hends hle (tail ++ r'))
  | inlineComment marker =>
    rw [hassoc] at hle
    rw [hassoc, hassoc]
    exact Or.inl (Extent.inlineComment_append (by simp) (hcut r) (hcut r') hle)
  | template =>
    rw [hassoc] at hle
    rw [hassoc, hassoc]
    exact Or.inl (Extent.templateFrom_append (by simp) hle)
  | shortString quote =>
    obtain ⟨hsolid, hlength⟩ := horderly.shortStrings _ ho
    obtain ⟨q, rfl⟩ := List.length_eq_one_iff.1 hlength
    obtain ⟨hquote, _, hescape⟩ := hsolid.2 q (List.mem_singleton_self q)
    cases hclose : Extent.firstClose? q (body ++ (indent ++ (c :: tail ++ r))) with
    | none => exact Or.inr ⟨q, rfl, hclose⟩
    | some n =>
      left
      simp only [Opening.extent, Extent.shortString_eq hescape hquote, hclose, Option.some_or,
        Option.getD_some] at hle ⊢
      rw [hassoc] at hclose ⊢
      rw [Extent.firstClose?_append_of_le hescape (hcut r) (hcut r') hclose hle]
      rfl

theorem exists_shortString_of_crossing (h : language ∈ table) (hblock : language.blockComments = [])
    (hm : marker ∈ language.inlineComments) {code r r' : Text} (hends : code.EndsLine)
    (hindent : indent.isBlank = true) {lexeme lexeme' : Lexeme}
    (hl : language.lexeme? lineStart (code ++ (indent ++ (marker ++ r))) = some lexeme)
    (hl' : language.lexeme? lineStart (code ++ (indent ++ (marker ++ r'))) = some lexeme')
    (hle : lexeme.text.length ≤ (code ++ indent).length)
    (hlt : (code ++ indent).length < lexeme'.text.length) :
    ∃ q body, code = q :: body ∧
      (∀ rest, language.opening? lineStart (q :: (body ++ rest)) = some (.shortString [q])) ∧
      Extent.firstClose? q (body ++ (indent ++ (marker ++ r))) = none ∧
      Extent.shortString [q] (body ++ (indent ++ (marker ++ r))) ≤ (body ++ indent).length ∧
      (body ++ indent).length < Extent.shortString [q] (body ++ (indent ++ (marker ++ r'))) := by
  have horderly := orderly_of_mem_table h
  cases lexeme' with
  | plain c =>
    have := List.length_pos_iff.2 hends.ne_nil
    simp only [Lexeme.text, List.length_append, List.length_cons, List.length_nil] at hlt
    omega
  | token token' =>
    obtain ⟨rest, htext, ho, hbody⟩ := token?_eq_some_iff.1 (lexeme?_token.1 hl')
    rw [opening?_append_of_endsLine horderly hends] at ho
    obtain ⟨body, rfl, hbodyEnds⟩ := exists_append_of_opening? horderly hends ho
    rw [List.append_assoc] at htext
    obtain rfl := List.append_cancel_left htext
    have ho' : ∀ rest, language.opening? lineStart (token'.opening.text ++ body ++ rest) =
        some token'.opening := fun rest => by
      rw [opening?_append_of_endsLine horderly hends, ho]
    have hhas := has_of_opening? ho
    -- the same opening stands in the first text, and its token is the first lexeme
    have ht : language.token? lineStart
        (token'.opening.text ++ body ++ (indent ++ (marker ++ r))) =
        some ⟨token'.opening, (body ++ (indent ++ (marker ++ r))).take
          (token'.opening.extent (body ++ (indent ++ (marker ++ r))))⟩ :=
      token?_eq_some_iff.2 ⟨_, List.append_assoc .., ho' _, rfl⟩
    obtain rfl := Option.some.inj (hl.symm.trans (lexeme?_token.2 ht))
    have hextent := token'.opening.extent_le (body ++ (indent ++ (marker ++ r)))
    have hshort : token'.opening.extent (body ++ (indent ++ (marker ++ r))) ≤
        (body ++ indent).length := by
      simp only [Lexeme.text, Token.text, List.length_append, List.length_take] at hle hextent ⊢
      omega
    have hlong : (body ++ indent).length <
        token'.opening.extent (body ++ (indent ++ (marker ++ r'))) := by
      simp only [Lexeme.text, Token.text, List.length_append, hbody, List.length_take] at hlt
      rw [List.length_append]
      omega
    rcases extent_marker h hblock hm hhas hbodyEnds hindent hshort r' with hsame |
      ⟨q, hopening, hclose⟩
    · omega
    · rw [hopening] at ho' hshort hlong
      exact ⟨q, body, by rw [hopening]; rfl, ho', hclose, hshort, hlong⟩

/-- A short string that starts in code, behind some of the lexemes that were read there. -/
structure StringIn (language : Language) (lineStart : Bool) (code : Text) (read : List Lexeme) where
  before : List Lexeme
  quote : Char
  body : Text
  isPrefix : before <+: read
  code_eq : code = before.flatMap Lexeme.text ++ quote :: body
  opening?_eq : ∀ rest, language.opening? (lineStartAfter lineStart (before.flatMap Lexeme.text))
    (quote :: (body ++ rest)) = some (.shortString [quote])

/-- **The border before the marker stays**, or a short string that never closes, and goes back to a
place before the marker, does so no more. -/
theorem border_or_unclosed (h : language ∈ table) (hblock : language.blockComments = [])
    (hm : marker ∈ language.inlineComments) {code r : Text} (hends : code.EndsLine)
    (hindent : indent.isBlank = true) {read after : List Lexeme}
    (hscan : language.lexemes lineStart (code ++ (indent ++ (marker ++ r))) = read ++ after)
    (hcover : read.flatMap Lexeme.text = code ++ indent) (r' : Text) :
    language.lexemes lineStart (code ++ (indent ++ (marker ++ r'))) =
        read ++ language.lexemes (lineStartAfter lineStart (code ++ indent)) (marker ++ r') ∨
      ∃ string : StringIn language lineStart code read,
        string.before <+: language.lexemes lineStart (code ++ (indent ++ (marker ++ r'))) ∧
        Extent.firstClose? string.quote (string.body ++ (indent ++ (marker ++ r))) = none ∧
        Extent.shortString [string.quote] (string.body ++ (indent ++ (marker ++ r))) ≤
          (string.body ++ indent).length ∧
        (string.body ++ indent).length <
          Extent.shortString [string.quote] (string.body ++ (indent ++ (marker ++ r'))) := by
  have horderly := orderly_of_mem_table h
  obtain ⟨c, tail, hmarker, hbreak, _⟩ := (horderly.inlineComments _ hm).exists_cons
  have hcut : ∀ r : Text, ¬ CutsPair (code ++ indent) (marker ++ r) := by
    rintro r ⟨_, hhead⟩
    obtain rfl : c = '\n' := by simpa [hmarker] using hhead
    simp [isLineBreak] at hbreak
  have hne : ∀ r : Text, marker ++ r ≠ [] := by simp [hmarker]
  rw [← List.append_assoc] at hscan ⊢
  have hall := flatMap_text_lexemes language lineStart (code ++ indent ++ (marker ++ r'))
  rcases border_or_crossing _ _ _ hall with ⟨before, after', hscan', hcover'⟩ |
    ⟨before, lexeme, after', front, back, hscan', hfront, hlexeme, hfrontNe, hbackNe⟩
  · left
    obtain rfl := lexemes_eq_of_border horderly (hne r) read before after after' lineStart
      (code ++ indent) (hcut r) (hcut r') hscan hcover hscan' hcover'
    obtain ⟨rest, htext, hafter⟩ := exists_of_lexemes_eq_append hscan'
    rw [hcover'] at htext hafter
    obtain rfl := List.append_cancel_left htext
    rw [hscan', hafter]
  · right
    obtain ⟨first, more, hread, hle, hl, hl'⟩ := exists_lexeme_of_border horderly (hne r') (hcut r)
      (hcut r') hscan hcover hscan' hfront hfrontNe
    have hlt : front.length < lexeme.text.length := by
      have := List.length_pos_iff.2 hbackNe
      rw [hlexeme, List.length_append]
      omega
    -- in the indent nothing opens, so the lexeme starts in the code
    have hsolid : ¬ front.isBlank = true := by
      intro hblank
      obtain ⟨d, front, rfl⟩ := List.exists_cons_of_ne_nil hfrontNe
      have hnone : language.token? (lineStartAfter lineStart (before.flatMap Lexeme.text))
          (d :: (front ++ (marker ++ r'))) = none := by
        rw [token?, opening?_indent h hm _ hblank, Option.map_none]
      obtain rfl := Option.some.inj (hl'.symm.trans (lexeme?_plain.2 hnone))
      simp [Lexeme.text] at hlt
    obtain ⟨start, rfl, rfl⟩ : ∃ start, code = before.flatMap Lexeme.text ++ start ∧
        front = start ++ indent := by
      rcases List.append_eq_append_iff.1 hfront with hstart | ⟨middle, _, rfl⟩
      · exact hstart
      · rw [Text.isBlank, List.all_append, Bool.and_eq_true] at hindent
        exact absurd hindent.2 hsolid
    have hstart : EndsLine start := by
      refine (endsLine_append_of_ne_nil ?_).1 hends
      rintro rfl
      exact hsolid hindent
    rw [List.append_assoc] at hl hl'
    obtain ⟨q, body, rfl, hopening, hclose, hshort, hlong⟩ :=
      exists_shortString_of_crossing h hblock hm hstart hindent hl hl' hle hlt
    exact ⟨⟨before, q, body, ⟨_, hread.symm⟩, rfl, hopening⟩, ⟨_, hscan'.symm⟩, hclose, hshort,
      hlong⟩

/-! ### The blocks -/

theorem blocksFrom_of_border (h : language ∈ table) (hm : marker ∈ language.inlineComments)
    {fresh : Bool} {code r : Text} (hends : code.EndsLine) (hindent : indent.isBlank = true)
    {read : List Lexeme} (hread : (withCode fresh []).addAll read = withCode fresh (code ++ indent))
    (hscan : language.lexemes lineStart (code ++ (indent ++ (marker ++ r))) =
      read ++ language.lexemes (lineStartAfter lineStart (code ++ indent)) (marker ++ r)) :
    language.blocksFrom lineStart fresh (code ++ (indent ++ (marker ++ r))) =
      Block.prepend code
        (language.blocksFrom (code.lineStartAfter lineStart) true (indent ++ (marker ++ r))) := by
  rw [blocksFrom, hscan, addAll_append, hread, finish_addAll_withCode_append hends, blocksFrom,
    lexemes_indent h hm r indent _ hindent, addAll_append, addAll_map_plain, lineStartAfter_append]
  rfl

theorem exists_of_code_cons (h : language ∈ table) {text code shown : Text} {spaced : Bool}
    {blocks : List Block}
    (hblocks : language.blocksFrom lineStart true text =
      .code code :: .inlineDoc indent marker spaced shown :: blocks) :
    ∃ r, text = code ++ (indent ++ (marker ++ r)) ∧
      language.blocksFrom (code.lineStartAfter lineStart) true (indent ++ (marker ++ r)) =
        .inlineDoc indent marker spaced shown :: blocks := by
  have hlayout := layout_blocksFrom language lineStart true text
  rw [hblocks] at hlayout
  have hends : code.EndsLine := (List.isChain_cons_cons.1 hlayout.isChain).1
  obtain ⟨hindent, hm, _⟩ := hlayout.ofLanguage (.inlineDoc indent marker spaced shown) (by simp)
  obtain ⟨read, lexeme, rest, rfl, hscan, hread, hdoc, _⟩ := exists_read_of_code_cons hblocks
  have hcover := (lexeme?_of_read hscan hread hdoc).1
  obtain ⟨behind, hbehind, hafter⟩ := exists_of_lexemes_eq_append hscan
  have htext : code ++ (Block.inlineDoc indent marker spaced shown).source ++ rest =
      code ++ (indent ++ (marker ++ ((if spaced then [' '] else []) ++ shown ++ rest))) := by
    simp [Block.source]
  obtain rfl : marker ++ ((if spaced then [' '] else []) ++ shown ++ rest) = behind := by
    rw [hcover, htext] at hbehind
    simpa [Block.indent] using hbehind
  rw [hcover] at hafter
  rw [hafter, htext] at hscan
  rw [htext] at hblocks
  refine ⟨_, htext, ?_⟩
  rw [blocksFrom_of_border h hm hends hindent hread hscan] at hblocks
  refine Block.eq_of_prepend_eq hends.ne_nil ?_ hblocks
  intro code' hmem
  exact (layout_blocksFrom ..).ofLanguage _ hmem

theorem StringIn.blocksFrom_eq {fresh : Bool} {code text : Text} {read : List Lexeme}
    (string : StringIn language lineStart code read)
    (hread : (withCode fresh []).addAll read = withCode fresh text) {rest : Text}
    (hbefore : string.before <+: language.lexemes lineStart (code ++ rest))
    (hwhole : Extent.shortString [string.quote] (string.body ++ rest) =
      (string.body ++ rest).length) :
    language.blocksFrom lineStart fresh (code ++ rest) = [.code (code ++ rest)] := by
  obtain ⟨more, hmore⟩ := string.isPrefix
  rw [← hmore] at hread
  have hcode := addAll_eq_withCode_of_append string.before [] hread
  obtain ⟨after, hscan⟩ := hbefore
  obtain ⟨behind, hbehind, hafter⟩ := exists_of_lexemes_eq_append hscan.symm
  have htext : code ++ rest = string.before.flatMap Lexeme.text ++
      string.quote :: (string.body ++ rest) := by
    conv_lhs => rw [string.code_eq]
    simp
  obtain rfl := List.append_cancel_left (htext.symm.trans hbehind)
  let token : Token := ⟨.shortString [string.quote], string.body ++ rest⟩
  have ht : language.token? (lineStartAfter lineStart (string.before.flatMap Lexeme.text))
      (string.quote :: (string.body ++ rest)) = some token := by
    refine token?_eq_some_iff.2 ⟨string.body ++ rest, rfl, string.opening?_eq rest, ?_⟩
    simp only [token, Opening.extent, hwhole, List.take_length]
  have hl : language.lexeme? (lineStartAfter lineStart (string.before.flatMap Lexeme.text))
      ((Lexeme.token token).text ++ []) = some (.token token) := by
    rw [List.append_nil]
    exact lexeme?_token.2 ht
  have hstep := lexemes_append hl
  rw [List.append_nil, lexemes_nil] at hstep
  have hlexemes : language.lexemes lineStart (code ++ rest) =
      string.before ++ [.token token] := by
    rw [← hscan, hafter]
    exact congrArg (string.before ++ ·) hstep
  rw [blocksFrom, hlexemes, addAll_append, hcode, addAll_cons, addAll_nil,
    add_withCode_of_none rfl, finish_withCode, List.nil_append, htext]
  exact Block.codeOf_of_ne_nil (List.append_ne_nil_of_right_ne_nil _ (List.cons_ne_nil _ _))

theorem eq_nil_of_unclosed (hmarker : marker.Solid) {body rest front : Text} {q : Char}
    (hl : language.lexeme? lineStart ((Lexeme.token ⟨.inlineComment marker, body⟩).text ++ rest) =
      some (.token ⟨.inlineComment marker, body⟩))
    (hclose : Extent.firstClose? q (front ++ (marker ++ (body ++ rest))) = none) : rest = [] := by
  by_contra hne
  obtain ⟨hlast, hcut⟩ := Extent.walks_on hmarker front
  rw [← List.append_assoc, Extent.firstClose?_append hlast (hcut _), Option.or_eq_none_iff,
    Option.map_eq_none_iff] at hclose
  have hextent := extent_of_token? hne (lexeme?_token.1 hl)
  have hpos := List.length_pos_iff.2 hne
  simp only [Opening.extent, Extent.inlineComment_of_firstClose?_eq_none hclose.2,
    List.length_append] at hextent
  omega

/-- **The comment is written anew, and it is swallowed or it is not.**  A comment of one line that
is written for itself is read back for itself, behind the same code, or it has become code together
with all that stands before it. -/
theorem blocksFrom_rewritten (h : language ∈ table) (hblock : language.blockComments = [])
    (hm : marker ∈ language.inlineComments) {code r text : Text} {spaced : Bool}
    {blocks : List Block}
    (hblocks : language.blocksFrom lineStart true (code ++ (indent ++ (marker ++ r))) =
      .code code :: .inlineDoc indent marker spaced text :: blocks)
    (hline : (stripTerminator text).1.Unbroken) {ending : LineEnding} {r' : Text}
    (hr' : blocks = [] →
      indent ++ (marker ++ r') = RegionWriter.writeText (indent ++ marker ++ [' ']) ending text) :
    language.blocksFrom lineStart true (code ++ (indent ++ (marker ++ r'))) =
        Block.prepend code
          (language.blocksFrom (code.lineStartAfter lineStart) true (indent ++ (marker ++ r'))) ∨
      language.blocksFrom lineStart true (code ++ (indent ++ (marker ++ r'))) =
        [.code (code ++ (indent ++ (marker ++ r')))] := by
  have horderly := orderly_of_mem_table h
  have hmarker := horderly.inlineComments _ hm
  have hlayout := layout_blocksFrom language lineStart true (code ++ (indent ++ (marker ++ r)))
  rw [hblocks] at hlayout
  have hends : code.EndsLine := (List.isChain_cons_cons.1 hlayout.isChain).1
  obtain ⟨hindent, _, hbare⟩ :=
    hlayout.ofLanguage (.inlineDoc indent marker spaced text) (by simp)
  obtain ⟨read, lexeme, rest, htext, hscan, hread, hdoc, hrest⟩ := exists_read_of_code_cons hblocks
  rw [htext] at hscan
  obtain ⟨hcover, hl⟩ := lexeme?_of_read hscan hread hdoc
  rw [← htext] at hscan
  rcases border_or_unclosed h hblock hm hends hindent hscan hcover r' with hborder |
    ⟨string, hbefore, hclose, hshort, hlong⟩
  · exact Or.inl (blocksFrom_of_border h hm hends hindent hread hborder)
  · right
    refine string.blocksFrom_eq hread hbefore ?_
    have hquote : Solid [string.quote] :=
      (horderly.shortStrings _ (has_of_opening? (string.opening?_eq []))).1
    obtain rfl := eq_token_of_doc? hdoc
    obtain rfl : r = (if spaced then [' '] else []) ++ text ++ rest := by
      simpa [Block.source] using htext
    rw [← List.append_assoc] at hclose hshort hlong ⊢
    obtain rfl := eq_nil_of_unclosed hmarker hl hclose
    rw [List.append_nil] at hclose hshort
    obtain rfl : r' = ' ' :: (text.stripTerminator.1 ++
        (text.stripTerminator.2.getD ending).text) := by
      have hwritten := hr' hrest.symm
      rw [RegionWriter.writeText, RegionWriter.writeLines_of_unbroken hline] at hwritten
      simpa using hwritten
    exact Extent.shortString_rewritten hquote hmarker hbare hclose hshort hlong

end Language

end Literate
