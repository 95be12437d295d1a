import Literate.Proofs.Bounds

/-!
# What a token within a text depends on

A reading that stays within a text does not depend on what stands behind the text, but only if it
stays within the text on both occasions: a greedy reading may go on where there is more to read.
`Local` says this, and it carries over from literal tokens to alternatives, to greedy choices and to
searches.  So openings are local, in every language, and tokens of orderly languages are:

  `lexemes lineStart (text ++ rest) = before ++ after` and
  `lexemes lineStart (text ++ rest') = before' ++ after'`, both with a border behind `text`,

give `before = before'` (`lexemes_eq_of_border`).  If only the first of them has that border, what
the second reads before it is still the same (`exists_lexeme_of_border`).
-/

namespace Literate

namespace Text

variable {α : Type} {size : α → Nat}

/-- If the result stays within a text, there is a result whatever stands behind the text, and it is
the same one if it stays within the text, too. -/
def Local (size : α → Nat) (reading : Text → Option α) : Prop :=
  ∀ (text rest rest' : Text) (result : α), reading (text ++ rest) = some result →
    size result ≤ text.length →
    ∃ result', reading (text ++ rest') = some result' ∧
      (size result' ≤ text.length → result' = result)

theorem Local.or {reading reading' : Text → Option α} (h : Local size reading)
    (h' : Local size reading') : Local size fun text => (reading text).or (reading' text) := by
  intro text rest rest' result hread hle
  simp only [Option.or_eq_some_iff] at hread ⊢
  rcases hread with hread | ⟨hnone, hread⟩
  · obtain ⟨result', hresult, hsame⟩ := h text rest rest' result hread hle
    exact ⟨result', Or.inl hresult, hsame⟩
  · obtain ⟨result', hresult, hsame⟩ := h' text rest rest' result hread hle
    cases hother : reading (text ++ rest') with
    | none => exact ⟨result', Or.inr ⟨rfl, hresult⟩, hsame⟩
    | some other =>
      refine ⟨other, Or.inl rfl, ?_⟩
      intro hshort
      -- The first reading would have a result before `rest`, too.
      obtain ⟨_, hback, _⟩ := h text rest' rest other hother hshort
      rw [hback] at hnone
      simp at hnone

theorem Local.map {β : Type} {size' : β → Nat} {reading : Text → Option α} (h : Local size reading)
    (f : α → β) (hsize : ∀ result, size' (f result) = size result) :
    Local size' fun text => (reading text).map f := by
  intro text rest rest' result hread hle
  obtain ⟨inner, hinner, rfl⟩ := Option.map_eq_some_iff.1 hread
  rw [hsize] at hle
  obtain ⟨inner', hinner', hsame⟩ := h text rest rest' inner hinner hle
  refine ⟨f inner', by simp [hinner'], ?_⟩
  intro hle'
  rw [hsize] at hle'
  rw [hsame hle']

theorem local_findSome? {β : Type} {reading : β → Text → Option α} (rules : List β)
    (h : ∀ rule ∈ rules, Local size (reading rule)) :
    Local size fun text => rules.findSome? (reading · text) := by
  induction rules with
  | nil =>
    intro text rest rest' result hread
    simp at hread
  | cons rule rules ih =>
    have hrest := ih fun other ho => h other (List.mem_cons_of_mem _ ho)
    have hor := (h rule (List.mem_cons_self ..)).or hrest
    have hcons : (fun text => (rule :: rules).findSome? (reading · text)) =
        fun text => (reading rule text).or (rules.findSome? (reading · text)) := by
      funext text
      rw [List.findSome?_cons]
      cases reading rule text <;> rfl
    rw [hcons]
    exact hor

theorem local_find? {p : α → Text → Bool} (tokens : List α)
    (h : ∀ token text rest rest', p token (text ++ rest) = true → size token ≤ text.length →
      p token (text ++ rest') = true) :
    Local size fun text => tokens.find? (p · text) := by
  have hguard : (fun text => tokens.find? (p · text)) =
      fun text => tokens.findSome? fun token => Option.guard (p · text) token := by
    funext text
    exact List.find?_eq_findSome?_guard
  rw [hguard]
  have hlocal : ∀ token ∈ tokens, Local size fun text => Option.guard (p · text) token := by
    intro token _ text rest rest' result hread hle
    obtain ⟨rfl, hp⟩ := Option.guard_eq_some_iff.1 hread
    exact ⟨token, Option.guard_eq_some_iff.2 ⟨rfl, h token text rest rest' hp hle⟩, fun _ => rfl⟩
  exact local_findSome? tokens hlocal

theorem isPrefixOf_append_of_le {token text : Text} (h : token.length ≤ text.length) (rest : Text) :
    token.isPrefixOf (text ++ rest) = token.isPrefixOf text := by
  rw [Bool.eq_iff_iff, List.isPrefixOf_iff_prefix, List.isPrefixOf_iff_prefix]
  constructor
  · intro hfront
    exact List.prefix_of_prefix_length_le hfront (List.prefix_append ..) h
  · intro hfront
    exact hfront.trans (List.prefix_append ..)

theorem local_startsWith {tokens : List Text} :
    Local List.length fun text => tokens.find? (startsWith · text) := by
  refine local_find? tokens ?_
  intro token text rest rest' hp hle
  rw [startsWith, isPrefixOf_append_of_le hle] at hp ⊢
  exact hp

theorem local_literally (token : Text) : Local id (literally token) := by
  intro text rest rest' n hread hle
  rw [literally, Option.ite_none_right_eq_some] at hread
  obtain ⟨hfront, hn⟩ := hread
  obtain rfl := Option.some.inj hn
  have hlength : token.length ≤ text.length := hle
  refine ⟨token.length, ?_, fun _ => rfl⟩
  rw [isPrefixOf_append_of_le hlength] at hfront
  rw [literally, isPrefixOf_append_of_le hlength, if_pos hfront]

/-! ### Greedy choices -/

theorem find?_filter_of_le {p : Nat → Bool} {numbers : List Nat} {n bound : Nat}
    (hfind : numbers.find? p = some n) (hn : n ≤ bound) :
    (numbers.filter (· ≤ bound)).find? p = some n := by
  obtain ⟨hp, before, after, rfl, hbefore⟩ := List.find?_eq_some_iff_append.1 hfind
  refine List.find?_eq_some_iff_append.2
    ⟨hp, before.filter (· ≤ bound), after.filter (· ≤ bound), ?_, ?_⟩
  · rw [List.filter_append, List.filter_cons_of_pos (by simpa using hn)]
  · intro m hm
    exact hbefore m (List.mem_filter.1 hm).1

/-- **Choices are local.**  Two of them that have the same possibilities up to a bound are the same
if neither goes beyond it. -/
theorem exists_find?_of_filter_eq {p p' : Nat → Bool} {numbers numbers' : List Nat} {n : Nat}
    (bound : Nat) (hp : ∀ m ≤ bound, p m = p' m)
    (hsame : numbers.filter (· ≤ bound) = numbers'.filter (· ≤ bound))
    (hfind : numbers.find? p = some n) (hn : n ≤ bound) :
    ∃ n', numbers'.find? p' = some n' ∧ (n' ≤ bound → n' = n) := by
  have hcongr : (numbers'.filter (· ≤ bound)).find? p = (numbers'.filter (· ≤ bound)).find? p' :=
    List.find?_congr fun m hm => hp m (by simpa using (List.mem_filter.1 hm).2)
  have hfirst := find?_filter_of_le hfind hn
  rw [hsame, hcongr] at hfirst
  have hmem := (List.mem_filter.1 (List.mem_of_find?_eq_some hfirst)).1
  have hsome : (numbers'.find? p').isSome = true :=
    List.find?_isSome.2 ⟨n, hmem, List.find?_some hfirst⟩
  obtain ⟨n', hfind'⟩ := Option.isSome_iff_exists.1 hsome
  refine ⟨n', hfind', ?_⟩
  intro hn'
  exact Option.some.inj ((find?_filter_of_le hfind' hn').symm.trans hfirst)

theorem exists_descending {p p' : Nat → Bool} {low high high' n : Nat} (bound : Nat)
    (hp : ∀ m ≤ bound, p m = p' m) (hhigh : ∀ m ≤ bound, (m < high ↔ m < high'))
    (hfind : ((List.range high).drop low).reverse.find? p = some n) (hn : n ≤ bound) :
    ∃ n', ((List.range high').drop low).reverse.find? p' = some n' ∧ (n' ≤ bound → n' = n) := by
  refine exists_find?_of_filter_eq bound hp ?_ hfind hn
  have hmin : min high (bound + 1) = min high' (bound + 1) := by
    have hleft := hhigh (min (high - 1) bound) (Nat.min_le_right ..)
    have hright := hhigh (min (high' - 1) bound) (Nat.min_le_right ..)
    omega
  rw [filter_descending, filter_descending, hmin]

theorem findSome?_filter {reading : Nat → Option α} {numbers : List Nat} {result : α}
    {keep : Nat → Bool} (hfind : numbers.findSome? reading = some result)
    (hkeep : ∀ n, reading n = some result → keep n = true) :
    (numbers.filter keep).findSome? reading = some result := by
  induction numbers with
  | nil => cases hfind
  | cons n numbers ih =>
    rw [List.findSome?_cons] at hfind
    cases hread : reading n with
    | some found =>
      rw [hread] at hfind
      obtain rfl := Option.some.inj hfind
      rw [List.filter_cons_of_pos (hkeep n hread), List.findSome?_cons, hread]
    | none =>
      rw [hread] at hfind
      rw [List.filter_cons]
      split
      · rw [List.findSome?_cons, hread]
        exact ih hfind
      · exact ih hfind

theorem local_findSome?_lengths {lengths : Text → List Nat} {reading : Nat → Text → Option α}
    (hlengths : ∀ text rest rest', (lengths (text ++ rest)).filter (· ≤ text.length) =
      (lengths (text ++ rest')).filter (· ≤ text.length))
    (hsize : ∀ n text result, reading n text = some result → n ≤ size result)
    (hlocal : ∀ n, Local size (reading n)) :
    Local size fun text => (lengths text).findSome? (reading · text) := by
  intro text rest rest' result hread hle
  dsimp only at hread ⊢
  have hkeep : ∀ behind (found : α), size found ≤ text.length →
      (lengths (text ++ behind)).findSome? (reading · (text ++ behind)) = some found →
      ((lengths (text ++ rest)).filter (· ≤ text.length)).findSome? (reading · (text ++ behind)) =
        some found := by
    intro behind found hfound hfind
    rw [hlengths text rest behind]
    refine findSome?_filter hfind ?_
    intro n hn
    exact decide_eq_true ((hsize n _ _ hn).trans hfound)
  obtain ⟨result', hresult', hsame⟩ := local_findSome? _ (fun n _ => hlocal n) text rest rest'
    result (hkeep rest result hle hread) hle
  have hsome : ((lengths (text ++ rest')).findSome? (reading · (text ++ rest'))).isSome = true := by
    rw [List.findSome?_isSome_iff]
    obtain ⟨n, hn, hreading⟩ := List.exists_of_findSome?_eq_some hresult'
    rw [hlengths text rest rest'] at hn
    exact ⟨n, (List.mem_filter.1 hn).1, by rw [hreading]; rfl⟩
  obtain ⟨found, hfound⟩ := Option.isSome_iff_exists.1 hsome
  refine ⟨found, hfound, ?_⟩
  intro hshort
  have heq := Option.some.inj ((hkeep rest' found hshort hfound).symm.trans hresult')
  rw [heq] at hshort ⊢
  exact hsame hshort

end Text

namespace Heredoc

open Text

variable {rule : Heredoc}

theorem local_delimiter? (rule : Heredoc) :
    Local (fun delimiter => rule.start.length + delimiter.length + rule.startEnd.length)
      rule.delimiter? := by
  intro text rest rest' delimiter hread hle
  dsimp only at hle ⊢
  have hlength := (isPrefix_of_delimiter? hread).length_le
  have hstart : rule.start.isPrefixOf text = true := by
    rw [← isPrefixOf_append_of_le (by omega) rest]
    exact List.isPrefixOf_iff_prefix.2 (start_isPrefix_of_delimiter? hread)
  obtain ⟨body, rfl⟩ := List.isPrefixOf_iff_prefix.1 hstart
  have hopen : ∀ behind, rule.delimiter? (rule.start ++ body ++ behind) =
      ((rule.shape.lengths (rule.start.lineStartAfter false) (body ++ behind)).find? fun n =>
        rule.startEnd.isPrefixOf ((body ++ behind).drop n)).map (body ++ behind).take := by
    intro behind
    rw [List.append_assoc, delimiter?, if_pos (List.isPrefixOf_iff_prefix.2 ⟨_, rfl⟩)]
    simp only [List.drop_left]
  rw [hopen] at hread ⊢
  obtain ⟨n, hn, rfl⟩ := Option.map_eq_some_iff.1 hread
  have hnle := Form.le_length_of_mem (List.mem_of_find?_eq_some hn)
  simp only [List.length_append, List.length_take] at hle hnle hlength
  have hbound : n + rule.startEnd.length ≤ body.length := by omega
  have hpossible : ∀ m ≤ body.length - rule.startEnd.length,
      rule.startEnd.isPrefixOf ((body ++ rest).drop m) =
        rule.startEnd.isPrefixOf ((body ++ rest').drop m) := by
    intro m hm
    have hshort : rule.startEnd.length ≤ (body.drop m).length := by
      rw [List.length_drop]
      omega
    rw [List.drop_append_of_le_length (by omega), List.drop_append_of_le_length (by omega),
      isPrefixOf_append_of_le hshort, isPrefixOf_append_of_le hshort]
  obtain ⟨n', hn', hsame⟩ := exists_find?_of_filter_eq _ hpossible
    (rule.shape.filter_lengths_append _ (Nat.sub_le ..) rest rest') hn (by omega)
  have hnle' := Form.le_length_of_mem (List.mem_of_find?_eq_some hn')
  refine ⟨(body ++ rest').take n', by rw [hn', Option.map_some], ?_⟩
  intro hshort
  simp only [List.length_append, List.length_take] at hshort hnle'
  obtain rfl := hsame (by omega)
  rw [List.take_append_of_le_length (by omega), List.take_append_of_le_length (by omega)]

theorem local_opening_behind (hstart : rule.start ≠ []) (width : Nat) :
    Local (fun found => found.1.length) fun text => (rule.delimiter? (text.drop width)).map
      fun delimiter => (text.take (width + rule.start.length + delimiter.length +
        rule.startEnd.length), delimiter) := by
  intro text rest rest' found hread hle
  dsimp only at hread hle ⊢
  obtain ⟨delimiter, hdelimiter, rfl⟩ := Option.map_eq_some_iff.1 hread
  have hpos := List.length_pos_iff.2 hstart
  have hlength := (isPrefix_of_delimiter? hdelimiter).length_le
  simp only [List.length_append, List.length_drop, List.length_take] at hlength hle
  have hwidth : width ≤ text.length := by omega
  have hshort : rule.start.length + delimiter.length + rule.startEnd.length ≤
      (text.drop width).length := by
    rw [List.length_drop]
    omega
  rw [List.drop_append_of_le_length hwidth] at hdelimiter ⊢
  obtain ⟨delimiter', hdelimiter', hsame⟩ :=
    rule.local_delimiter? (text.drop width) rest rest' delimiter hdelimiter hshort
  rw [hdelimiter', Option.map_some]
  refine ⟨_, rfl, ?_⟩
  intro hle'
  have hlength' := (isPrefix_of_delimiter? hdelimiter').length_le
  simp only [List.length_append, List.length_drop, List.length_take] at hlength' hle' hsame hshort
  obtain rfl := hsame (by omega)
  rw [List.take_append_of_le_length (by omega), List.take_append_of_le_length (by omega)]

/-- **The opening of a here-document is local.** -/
theorem local_opening? (rule : Heredoc) (lineStart : Bool) :
    Local (fun found => found.1.length) (rule.opening? lineStart) := by
  intro text rest rest' found hread hle
  rw [opening?, Option.ite_none_left_eq_some] at hread
  obtain ⟨hempty, hread⟩ := hread
  have hstart : rule.start ≠ [] := by simpa using hempty
  rw [opening?, if_neg hempty]
  refine local_findSome?_lengths ?_ ?_ (local_opening_behind hstart) text rest rest' found hread hle
  · intro text rest rest'
    exact rule.lead.filter_lengths_append lineStart (Nat.le_refl _) rest rest'
  · intro width text result hresult
    obtain ⟨delimiter, hdelimiter, rfl⟩ := Option.map_eq_some_iff.1 hresult
    have hpos := List.length_pos_iff.2 hstart
    have hlength := (isPrefix_of_delimiter? hdelimiter).length_le
    simp only [List.length_append, List.length_drop, List.length_take] at hlength ⊢
    omega

theorem local_closing? (rule : Heredoc) (delimiter : Text) :
    Local id (rule.closing? delimiter) := by
  intro text rest rest' n hread hle
  have hlength : n ≤ text.length := hle
  rw [closing?, Option.ite_none_right_eq_some] at hread
  obtain ⟨hstop, hread⟩ := hread
  dsimp only at hread
  obtain ⟨m, hm, rfl⟩ := Option.map_eq_some_iff.1 hread
  rw [isPrefixOf_append_of_le (by omega)] at hstop
  obtain ⟨body, rfl⟩ := List.isPrefixOf_iff_prefix.1 hstop
  rw [List.length_append] at hlength
  rw [List.append_assoc, List.drop_left] at hm
  have hpossible : ∀ m ≤ body.length - (delimiter ++ rule.stopEnd).length,
      (delimiter ++ rule.stopEnd).isPrefixOf ((body ++ rest).drop m) =
        (delimiter ++ rule.stopEnd).isPrefixOf ((body ++ rest').drop m) := by
    intro m hm
    have hshort : (delimiter ++ rule.stopEnd).length ≤ (body.drop m).length := by
      rw [List.length_append] at hm ⊢
      rw [List.length_drop]
      omega
    rw [List.length_append] at hm
    rw [List.drop_append_of_le_length (by omega), List.drop_append_of_le_length (by omega),
      isPrefixOf_append_of_le hshort, isPrefixOf_append_of_le hshort]
  have hindent : ∀ m ≤ body.length - (delimiter ++ rule.stopEnd).length,
      (m < ((body ++ rest).takeWhile rule.stopIndent.contains).length + 1 ↔
        m < ((body ++ rest').takeWhile rule.stopIndent.contains).length + 1) := by
    intro m hm
    rw [Nat.lt_succ_iff, Nat.lt_succ_iff]
    exact le_length_takeWhile_append (by omega) rest rest'
  rw [← @List.drop_zero _ (List.range _)] at hm
  obtain ⟨m', hm', hsame⟩ := exists_descending _ hpossible hindent hm (by
    rw [List.length_append]
    omega)
  rw [List.length_append] at hsame
  refine ⟨rule.stop.length + m' + delimiter.length + rule.stopEnd.length, ?_, ?_⟩
  · rw [List.append_assoc, closing?, if_pos (List.isPrefixOf_iff_prefix.2 ⟨_, rfl⟩)]
    simp only [List.drop_left]
    rw [List.drop_zero] at hm'
    rw [hm', Option.map_some]
  · intro hle'
    simp only [id, List.length_append] at hle'
    rw [hsame (by omega)]

end Heredoc

namespace Language

open Text

/-- **Openings are local**, in every language. -/
theorem local_opening? (language : Language) (lineStart : Bool) :
    Local (fun opening => opening.text.length) (language.opening? lineStart) := by
  have hblock : Local (fun opening => opening.text.length) language.blockCommentOpening? := by
    have hpair : Local (fun pair => pair.1.length) fun text =>
        language.blockComments.find? fun pair => startsWith pair.1 text := by
      refine local_find? language.blockComments ?_
      intro pair text rest rest' hp hle
      rw [startsWith, isPrefixOf_append_of_le hle] at hp ⊢
      exact hp
    exact hpair.map _ fun _ => rfl
  have hlong : Local (fun opening => opening.text.length) language.longStringOpening? :=
    local_startsWith.map _ fun _ => rfl
  have hheredoc : Local (fun opening => opening.text.length)
      (language.heredocOpening? lineStart) := by
    refine local_findSome? language.heredocs ?_
    intro rule _
    exact (rule.local_opening? lineStart).map _ fun _ => rfl
  have hinline : Local (fun opening => opening.text.length) language.inlineCommentOpening? :=
    local_startsWith.map _ fun _ => rfl
  have hshort : Local (fun opening => opening.text.length) language.shortStringOpening? :=
    local_startsWith.map _ fun _ => rfl
  have htemplate : Local (fun opening => opening.text.length) language.templateOpening? := by
    intro text rest rest' opening hread hle
    rw [templateOpening?, Option.ite_none_right_eq_some] at hread
    obtain ⟨hhead, hopening⟩ := hread
    obtain rfl := Option.some.inj hopening
    obtain ⟨c, text, rfl⟩ := List.exists_cons_of_length_pos (Nat.lt_of_succ_le hle)
    exact ⟨.template, if_pos hhead, fun _ => rfl⟩
  exact hblock.or (hlong.or (hheredoc.or (hinline.or (hshort.or htemplate))))

end Language

/-! ### Extents -/

namespace Text

variable {reading : Text → Option Nat}

/-- **A search for a local reading is local.** -/
theorem Local.endOfFirst (h : Local id reading)
    (hpos : ∀ text n, reading text = some n → 0 < n) : Local id (Text.endOfFirst reading) := by
  intro text rest rest'
  induction text with
  | nil =>
    intro n hread hle
    obtain ⟨front, back, m, _, hm, rfl⟩ := exists_of_endOfFirst _ n hread
    have := hpos back m hm
    have hzero : front.length + m ≤ 0 := hle
    omega
  | cons c text ih =>
    intro n hread hle
    rw [List.cons_append, endOfFirst_cons, Option.or_eq_some_iff] at hread
    rw [List.cons_append, endOfFirst_cons]
    rcases hread with hread | ⟨hnone, hread⟩
    · obtain ⟨n', hn', hsame⟩ := h (c :: text) rest rest' n hread hle
      rw [List.cons_append] at hn'
      exact ⟨n', by rw [hn', Option.some_or], hsame⟩
    · obtain ⟨m, hm, rfl⟩ := Option.map_eq_some_iff.1 hread
      have hlength : 1 + m ≤ text.length + 1 := hle
      obtain ⟨m', hm', hsame⟩ := ih m hm (show m ≤ text.length by omega)
      cases hearly : reading (c :: (text ++ rest')) with
      | none =>
        refine ⟨1 + m', by rw [hm', Option.none_or, Option.map_some], ?_⟩
        intro hle'
        have hlength' : 1 + m' ≤ text.length + 1 := hle'
        rw [hsame (show m' ≤ text.length by omega)]
      | some n' =>
        refine ⟨n', rfl, ?_⟩
        intro hle'
        obtain ⟨_, hback, _⟩ := h (c :: text) rest' rest n' hearly hle'
        rw [List.cons_append] at hback
        rw [hback] at hnone
        simp at hnone

theorem Local.getD_endOfFirst_append (h : Local id reading)
    (hpos : ∀ text n, reading text = some n → 0 < n) {text rest rest' : Text} (hne : rest ≠ [])
    (hle : ((text ++ rest).endOfFirst reading).getD (text ++ rest).length ≤ text.length)
    (hle' : ((text ++ rest').endOfFirst reading).getD (text ++ rest').length ≤ text.length) :
    ((text ++ rest').endOfFirst reading).getD (text ++ rest').length =
      ((text ++ rest).endOfFirst reading).getD (text ++ rest).length := by
  cases hfirst : (text ++ rest).endOfFirst reading with
  | none =>
    have := List.length_pos_iff.2 hne
    rw [hfirst, Option.getD_none, List.length_append] at hle
    omega
  | some n =>
    rw [hfirst, Option.getD_some] at hle
    obtain ⟨n', hn', hsame⟩ := h.endOfFirst hpos text rest rest' n hfirst hle
    rw [hn', Option.getD_some] at hle'
    rw [hn', hsame hle']
    rfl

end Text

namespace Extent

open Text

variable {q : Char}

theorem firstClose?_le {text : Text} {n : Nat} (h : firstClose? q text = some n) :
    n ≤ text.length := by
  fun_induction firstClose? q text generalizing n with
  | case1 => simp at h
  | case2 rest ih =>
    obtain ⟨m, hm, rfl⟩ := Option.map_eq_some_iff.1 h
    have := ih hm
    simp only [List.length_cons]
    omega
  | case3 c rest hpair ih =>
    obtain ⟨m, hm, rfl⟩ := Option.map_eq_some_iff.1 h
    have := ih hm
    simp only [List.length_cons]
    omega
  | case4 rest =>
    obtain rfl := Option.some.inj h
    simp
  | case5 c rest hpair hescaped hcrlf hc =>
    obtain rfl := Option.some.inj h
    simp
  | case6 c rest hpair hescaped hcrlf hc ih =>
    obtain ⟨m, hm, rfl⟩ := Option.map_eq_some_iff.1 h
    have := ih hm
    simp only [List.length_cons]
    omega

theorem lastEscapedPair?_le {text : Text} {n : Nat} (h : lastEscapedPair? text = some n) :
    n ≤ text.length := by
  fun_induction lastEscapedPair? text generalizing n with
  | case1 => simp at h
  | case2 rest ih =>
    simp only [List.length_cons]
    rcases Option.or_eq_some_iff.1 h with h | ⟨_, h⟩
    · obtain ⟨m, hm, rfl⟩ := Option.map_eq_some_iff.1 h
      have := ih hm
      omega
    · obtain rfl := Option.some.inj h
      omega
  | case3 c rest hpair ih =>
    obtain ⟨m, hm, rfl⟩ := Option.map_eq_some_iff.1 h
    have := ih hm
    simp only [List.length_cons]
    omega
  | case4 c rest hpair hescaped ih =>
    obtain ⟨m, hm, rfl⟩ := Option.map_eq_some_iff.1 h
    have := ih hm
    simp only [List.length_cons]
    omega

theorem shortString_le (hescape : q ≠ '\\') (hbreak : isLineBreak q = false) (text : Text) :
    shortString [q] text ≤ text.length := by
  rw [shortString_eq hescape hbreak]
  cases hclose : firstClose? q text with
  | some n => exact firstClose?_le hclose
  | none =>
    cases hpair : lastEscapedPair? text with
    | some n => exact lastEscapedPair?_le hpair
    | none => exact Nat.le_refl _

end Extent

namespace Opening

open Text

variable {language : Language} {opening : Opening}

/-- **How tokens find their end**: by a search for a local reading, with their line, at their quote
or as a template literal. -/
theorem extent_cases (h : language.Orderly) (ho : language.Has opening) :
    (∃ reading, Nearsighted reading ∧ Local id reading ∧
      ∀ text, opening.extent text = (text.endOfFirst reading).getD text.length) ∨
    (∃ marker, opening = .inlineComment marker) ∨
    (∃ q, opening = .shortString [q] ∧ q ≠ '\\' ∧ isLineBreak q = false) ∨
    opening = .template := by
  cases opening with
  | blockComment opener closer =>
    obtain ⟨hopener, hcloser⟩ := h.blockComments _ ho
    exact Or.inl ⟨_, (nearsighted_literally hcloser).or (nearsighted_literally hopener),
      (local_literally closer).or (local_literally opener), fun _ => rfl⟩
  | longString delimiter =>
    exact Or.inl ⟨_, nearsighted_literally (h.longStrings _ ho), local_literally delimiter,
      fun _ => rfl⟩
  | heredoc rule opener delimiter =>
    obtain ⟨hrule, lineStart, source, hopen⟩ := ho
    exact Or.inl ⟨_, Heredoc.nearsighted_closing? (h.heredocs _ hrule)
      (Heredoc.delimiter_of_opening? (h.heredocs _ hrule) hopen).1, rule.local_closing? delimiter,
      fun _ => rfl⟩
  | inlineComment marker => exact Or.inr (Or.inl ⟨marker, rfl⟩)
  | shortString quote =>
    obtain ⟨hsolid, hlength⟩ := h.shortStrings _ ho
    obtain ⟨q, rfl⟩ := List.length_eq_one_iff.1 hlength
    obtain ⟨hbreak, _, hescape⟩ := hsolid.2 q (List.mem_singleton_self q)
    exact Or.inr (Or.inr (Or.inl ⟨q, rfl, hescape, hbreak⟩))
  | template => exact Or.inr (Or.inr (Or.inr rfl))

/-- **An extent within a text does not depend on what stands behind the text.** -/
theorem extent_append_of_le (h : language.Orderly) (ho : language.Has opening)
    {text rest rest' : Text} (hne : rest ≠ []) (hcut : ¬ CutsPair text rest)
    (hcut' : ¬ CutsPair text rest') (hle : opening.extent (text ++ rest) ≤ text.length)
    (hle' : opening.extent (text ++ rest') ≤ text.length) :
    opening.extent (text ++ rest') = opening.extent (text ++ rest) := by
  rcases extent_cases h ho with ⟨reading, hnear, hlocal, hextent⟩ | ⟨marker, rfl⟩ |
    ⟨q, rfl, hescape, hbreak⟩ | rfl
  · rw [hextent] at hle hle'
    rw [hextent, hextent]
    exact hlocal.getD_endOfFirst_append (fun _ _ hn => hnear.pos hn) hne hle hle'
  · exact Extent.inlineComment_append hne hcut hcut' hle
  · exact Extent.shortString_append_of_le hescape hbreak hne hcut hcut' hle hle'
  · exact Extent.templateFrom_append hne hle

end Opening

namespace Language

open Text

variable {language : Language} {lineStart : Bool} {text rest rest' : Text}

theorem token?_append_of_le (h : language.Orderly) (hne : rest ≠ []) (hcut : ¬ CutsPair text rest)
    (hcut' : ¬ CutsPair text rest') {token : Token}
    (ht : language.token? lineStart (text ++ rest) = some token)
    (hle : token.text.length ≤ text.length) :
    ∃ token', language.token? lineStart (text ++ rest') = some token' ∧
      (token'.text.length ≤ text.length → token' = token) := by
  have hhas := has_of_token? ht
  obtain ⟨behind, hbehind⟩ := (token?_isPrefix ht).2
  have hfront := List.prefix_of_prefix_length_le ⟨behind, hbehind⟩ (List.prefix_append ..) hle
  obtain ⟨tail, rfl⟩ := hfront
  rw [List.append_assoc] at ht
  have hextent := extent_eq_length_of_token? ht
  have ho := (token?_text_append_iff.1 ht).1
  rw [← List.append_assoc] at ho hextent
  obtain ⟨opening, body⟩ := token
  dsimp only [Token.text] at ho hle hcut hcut' hextent hhas ⊢
  have hshort : opening.text.length ≤ (opening.text ++ body ++ tail).length := by
    simp only [List.length_append]
    omega
  obtain ⟨opening', ho', hsame⟩ := language.local_opening? lineStart _ rest rest' opening ho hshort
  obtain ⟨token', ht'⟩ : ∃ token', language.token? lineStart
      (opening.text ++ body ++ tail ++ rest') = some token' := by
    rw [token?, ho']
    exact ⟨_, rfl⟩
  refine ⟨token', ht', ?_⟩
  intro hle'
  obtain ⟨behind', htext', ho'', hbody'⟩ := token?_eq_some_iff.1 ht'
  obtain ⟨_, body'⟩ := token'
  dsimp only [Token.text] at hle' htext' ho'' hbody' ⊢
  obtain rfl := Option.some.inj (ho'.symm.trans ho'')
  have hshort' : opening'.text.length ≤ (opening.text ++ body ++ tail).length := by
    rw [List.length_append] at hle'
    omega
  obtain rfl := hsame hshort'
  obtain rfl : body ++ tail ++ rest' = behind' := by simpa using htext'
  have hextent' := opening'.extent_le (body ++ tail ++ rest')
  have hle'' : opening'.extent (body ++ tail ++ rest') ≤ (body ++ tail).length := by
    rw [hbody'] at hle'
    simp only [List.length_append, List.length_take] at hle' hextent' ⊢
    omega
  rw [List.append_assoc] at hcut hcut'
  have hsame' := Opening.extent_append_of_le h hhas hne (fun hc => hcut (hc.append_left _))
    (fun hc => hcut' (hc.append_left _)) (by rw [hextent]; simp) hle''
  rw [hsame', hextent, List.append_assoc, List.take_left] at hbody'
  rw [hbody']

theorem lexeme?_eq_of_le (h : language.Orderly) (hne : rest ≠ []) (hcut : ¬ CutsPair text rest)
    (hcut' : ¬ CutsPair text rest') {lexeme lexeme' : Lexeme}
    (hl : language.lexeme? lineStart (text ++ rest) = some lexeme)
    (hl' : language.lexeme? lineStart (text ++ rest') = some lexeme')
    (hle : lexeme.text.length ≤ text.length) (hle' : lexeme'.text.length ≤ text.length) :
    lexeme = lexeme' := by
  cases lexeme with
  | token token =>
    obtain ⟨token', ht', hsame⟩ := token?_append_of_le h hne hcut hcut' (lexeme?_token.1 hl) hle
    obtain rfl := Option.some.inj ((lexeme?_token.2 ht').symm.trans hl')
    rw [hsame hle']
  | plain c =>
    obtain ⟨d, text, rfl⟩ := List.exists_cons_of_length_pos (Nat.lt_of_succ_le hle)
    obtain rfl : c = d := (List.cons_prefix_cons.1 (lexeme?_isPrefix hl).2).1
    cases lexeme' with
    | plain d => rw [(List.cons_prefix_cons.1 (lexeme?_isPrefix hl').2).1]
    | token token =>
      -- The opening of the token would be found in both texts.
      obtain ⟨_, _, ho, _⟩ := token?_eq_some_iff.1 (lexeme?_token.1 hl')
      have hshort : token.opening.text.length ≤ (c :: text).length := by
        rw [Lexeme.text, Token.text, List.length_append] at hle'
        omega
      obtain ⟨opening, hopening, _⟩ := language.local_opening? lineStart _ rest' rest _ ho hshort
      have hnone : language.token? lineStart (c :: text ++ rest) = none := lexeme?_plain.1 hl
      rw [token?, hopening] at hnone
      simp at hnone

/-- **Lexemes that stay within a text do not depend on what stands behind the text**, as far as they
cover the same part of it. -/
theorem lexemes_isPrefix_of_le (h : language.Orderly) (hne : rest ≠ []) :
    ∀ (before before' after after' : List Lexeme) (lineStart : Bool) (text : Text),
      ¬ CutsPair text rest → ¬ CutsPair text rest' →
      language.lexemes lineStart (text ++ rest) = before ++ after →
      language.lexemes lineStart (text ++ rest') = before' ++ after' →
      (before.flatMap Lexeme.text).length ≤ (before'.flatMap Lexeme.text).length →
      (before'.flatMap Lexeme.text).length ≤ text.length → before <+: before' := by
  intro before
  induction before with
  | nil =>
    intros
    exact List.nil_prefix
  | cons first before ih =>
    intro before' after after' lineStart text hcut hcut' hscan hscan' hle hle'
    obtain ⟨behind, hbehind, hl, hafter⟩ := exists_rest_of_lexemes_eq_cons hscan
    have hfirst := List.length_pos_iff.2 (lexeme?_isPrefix hl).1
    cases before' with
    | nil =>
      simp only [List.flatMap_cons, List.flatMap_nil, List.length_append, List.length_nil] at hle
      omega
    | cons first' before' =>
      obtain ⟨behind', hbehind', hl', hafter'⟩ := exists_rest_of_lexemes_eq_cons hscan'
      simp only [List.flatMap_cons, List.length_append] at hle hle'
      obtain rfl := lexeme?_eq_of_le h hne hcut hcut' hl hl' (by omega) (by omega)
      have hfront : first.text <+: text :=
        List.prefix_of_prefix_length_le ⟨behind, hbehind.symm⟩ (List.prefix_append ..) (by omega)
      obtain ⟨text, rfl⟩ := hfront
      rw [List.append_assoc] at hbehind hbehind'
      obtain rfl := List.append_cancel_left hbehind
      obtain rfl := List.append_cancel_left hbehind'
      rw [List.length_append] at hle'
      rw [List.prefix_cons_inj]
      exact ih before' after after' _ text (fun hc => hcut (hc.append_left _))
        (fun hc => hcut' (hc.append_left _)) hafter.symm hafter'.symm (by omega) (by omega)

/-- **The lexemes up to a border do not depend on what stands behind the border**, if the two texts
behind it both leave it a border. -/
theorem lexemes_eq_of_border (h : language.Orderly) (hne : rest ≠ [])
    (before before' after after' : List Lexeme) (lineStart : Bool) (text : Text)
    (hcut : ¬ CutsPair text rest) (hcut' : ¬ CutsPair text rest')
    (hscan : language.lexemes lineStart (text ++ rest) = before ++ after)
    (hcover : before.flatMap Lexeme.text = text)
    (hscan' : language.lexemes lineStart (text ++ rest') = before' ++ after')
    (hcover' : before'.flatMap Lexeme.text = text) : before = before' := by
  obtain ⟨more, rfl⟩ := lexemes_isPrefix_of_le h hne before before' after after' lineStart text hcut
    hcut' hscan hscan' (by rw [hcover, hcover']) (by rw [hcover'])
  cases more with
  | nil => exact (List.append_nil before).symm
  | cons first more =>
    have hmem : first ∈ language.lexemes lineStart (text ++ rest') := by
      rw [hscan']
      simp
    rw [List.flatMap_append, hcover, List.append_right_eq_self, List.flatMap_cons,
      List.append_eq_nil_iff] at hcover'
    exact absurd hcover'.1 (text_ne_nil_of_mem_lexemes hmem)

/-- **A lexeme within one text, and what stands in its place in another.**  The first scan reads as
far as the text reaches; the second has a lexeme that starts in the text.  Then there is a lexeme in
its place in the first scan. -/
theorem exists_lexeme_of_border (h : language.Orderly) (hne : rest' ≠ [])
    (hcut : ¬ CutsPair text rest) (hcut' : ¬ CutsPair text rest')
    {read after before after' : List Lexeme} {lexeme' : Lexeme} {front : Text}
    (hscan : language.lexemes lineStart (text ++ rest) = read ++ after)
    (hcover : read.flatMap Lexeme.text = text)
    (hscan' : language.lexemes lineStart (text ++ rest') = before ++ lexeme' :: after')
    (htext : before.flatMap Lexeme.text ++ front = text) (hfront : front ≠ []) :
    ∃ lexeme more, read = before ++ lexeme :: more ∧ lexeme.text.length ≤ front.length ∧
      language.lexeme? (lineStartAfter lineStart (before.flatMap Lexeme.text)) (front ++ rest) =
        some lexeme ∧
      language.lexeme? (lineStartAfter lineStart (before.flatMap Lexeme.text)) (front ++ rest') =
        some lexeme' := by
  have hlength := congrArg List.length htext
  rw [List.length_append] at hlength
  obtain ⟨more, rfl⟩ := lexemes_isPrefix_of_le h hne before read _ after lineStart text hcut' hcut
    hscan' hscan (by rw [hcover]; omega) (by rw [hcover])
  rw [List.flatMap_append, ← htext] at hcover
  have hmore := List.append_cancel_left hcover
  obtain ⟨lexeme, more, rfl⟩ : ∃ lexeme rest, more = lexeme :: rest := by
    refine List.exists_cons_of_ne_nil ?_
    rintro rfl
    exact hfront hmore.symm
  rw [List.append_assoc, List.cons_append] at hscan
  obtain ⟨_, hbehind, hl, _⟩ := exists_rest_of_lexemes_eq hscan
  obtain ⟨_, hbehind', hl', _⟩ := exists_rest_of_lexemes_eq hscan'
  rw [← htext, List.append_assoc] at hbehind hbehind'
  rw [← List.append_cancel_left hbehind] at hl
  rw [← List.append_cancel_left hbehind'] at hl'
  refine ⟨lexeme, more, rfl, ?_, hl, hl'⟩
  rw [← hmore, List.flatMap_cons, List.length_append]
  omega

end Language

end Literate
