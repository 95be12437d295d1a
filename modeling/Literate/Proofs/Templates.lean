import Literate.Proofs.Extents

/-!
# The end of a template literal

A template literal holds escaped characters, holes, and any other characters but backticks and
backslashes.  A hole holds literals again, whose own holes hold anything but a closing brace:

  body: `\c`, `${` hole `}`, or a character that is neither of these nor a backtick,
  hole: a backtick, inner body and backtick, or a character that is neither `}` nor a backtick.

The scan remembers no more than the `Place` it is at, and yet it follows this grammar in both
directions.  From every place it passes over whatever may stand there before the closing backtick
(`Body.templateFrom_outer`), and where it stops before the end of the text it has passed over such a
text (`stops`).  So whether a text is a body can be decided by scanning it (`body_iff`).
-/

namespace Literate

namespace Template

open Extent

/-! ### The grammar -/

/-- The text between the backticks of a literal, with the given texts in its holes. -/
inductive Body (Hole : Text → Prop) : Text → Prop
  | nil : Body Hole []
  | escaped (c : Char) {rest : Text} : Body Hole rest → Body Hole ('\\' :: c :: rest)
  | hole {inside rest : Text} : Hole inside → Body Hole rest →
      Body Hole ('$' :: '\x7b' :: (inside ++ '\x7d' :: rest))
  | plain {c : Char} {rest : Text} : c ≠ '\x60' → c ≠ '\\' →
      ¬ (c = '$' ∧ rest.head? = some '\x7b') → Body Hole rest → Body Hole (c :: rest)

/-- A hole of a literal that stands in a hole itself.  Backticks have no meaning in it. -/
def InnerHole (inside : Text) : Prop :=
  '\x7d' ∉ inside

theorem innerHole_nil : InnerHole [] :=
  List.not_mem_nil

theorem InnerHole.cons {c : Char} {inside : Text} (h : InnerHole inside) (hc : c ≠ '\x7d') :
    InnerHole (c :: inside) := by
  rw [InnerHole, List.mem_cons, not_or]
  exact ⟨Ne.symm hc, h⟩

inductive Hole : Text → Prop
  | nil : Hole []
  | nested {body rest : Text} : Body InnerHole body → Hole rest →
      Hole ('\x60' :: (body ++ '\x60' :: rest))
  | plain {c : Char} {rest : Text} : c ≠ '\x7d' → c ≠ '\x60' → Hole rest → Hole (c :: rest)

/-- The text leads from the place to the end of the literal, where the closing backtick comes. -/
inductive Leads : Place → Text → Prop
  | outer {body : Text} : Body Hole body → Leads .outer body
  | hole {inside rest : Text} : Hole inside → Leads .outer rest →
      Leads .hole (inside ++ '\x7d' :: rest)
  | inner {body rest : Text} : Body InnerHole body → Leads .hole rest →
      Leads .inner (body ++ '\x60' :: rest)
  | innerHole {inside rest : Text} : InnerHole inside → Leads .inner rest →
      Leads .innerHole (inside ++ '\x7d' :: rest)

/-! ### What the grammar allows is passed over -/

/-- **A body is passed over in one piece** if its holes are, wherever the literal stands. -/
theorem Body.templateFrom_append (place : Place) (hplace : place.isLiteral = true)
    {Hole : Text → Prop} (hhole : ∀ inside, Hole inside → ∀ rest,
      templateFrom place.opened (inside ++ '\x7d' :: rest) =
        inside.length + 1 + templateFrom place rest)
    {body : Text} (h : Body Hole body) (rest : Text) :
    templateFrom place (body ++ '\x60' :: rest) =
      body.length + templateFrom place ('\x60' :: rest) := by
  induction h with
  | nil => simp
  | escaped c _ ih =>
    rw [List.cons_append, List.cons_append, templateFrom_escape hplace, ih]
    simp only [List.length_cons]
    omega
  | hole hinside _ ih =>
    rw [List.cons_append, List.cons_append, List.append_assoc, List.cons_append,
      templateFrom_open hplace, hhole _ hinside, ih]
    simp only [List.length_cons, List.length_append]
    omega
  | @plain c tail htick hescape hopen _ ih =>
    have hpass : place.Passes c (tail ++ '\x60' :: rest) := by
      refine fun _ => ⟨fun hc => absurd hc hescape, fun hc hhead => hopen ⟨hc, ?_⟩⟩
      cases tail with
      | nil => simp at hhead
      | cons d tail => exact hhead
    have hafter : place.after c = place := by
      cases place with
      | outer => rfl
      | inner => simp [Place.after, htick]
      | hole | innerHole => simp [Place.isLiteral] at hplace
    rw [List.cons_append, templateFrom_pass hpass (fun _ => htick), hafter, ih]
    simp only [List.length_cons]
    omega

theorem InnerHole.templateFrom_append {inside : Text} (h : InnerHole inside) (rest : Text) :
    templateFrom .innerHole (inside ++ '\x7d' :: rest) =
      inside.length + 1 + templateFrom .inner rest := by
  induction inside with
  | nil =>
    rw [List.nil_append, templateFrom]
    simp
  | cons c inside ih =>
    rw [InnerHole, List.mem_cons, not_or] at h
    rw [List.cons_append, templateFrom, if_neg (by simpa using Ne.symm h.1), ih h.2]
    simp only [List.length_cons]
    omega

theorem Body.templateFrom_inner {body : Text} (h : Body InnerHole body) (rest : Text) :
    templateFrom .inner (body ++ '\x60' :: rest) = body.length + 1 + templateFrom .hole rest := by
  have hclose : templateFrom .inner ('\x60' :: rest) = 1 + templateFrom .hole rest :=
    templateFrom_pass (fun _ => by simp) (by simp)
  rw [h.templateFrom_append .inner rfl
    (fun _ hinside rest => hinside.templateFrom_append rest), hclose]
  omega

theorem Hole.templateFrom_append {inside : Text} (h : Hole inside) (rest : Text) :
    templateFrom .hole (inside ++ '\x7d' :: rest) =
      inside.length + 1 + templateFrom .outer rest := by
  induction h with
  | nil =>
    rw [List.nil_append, templateFrom]
    simp
  | nested hbody _ ih =>
    rw [List.cons_append, List.append_assoc, List.cons_append, templateFrom, if_neg (by decide),
      if_pos (by decide), hbody.templateFrom_inner, ih]
    simp only [List.length_cons, List.length_append]
    omega
  | plain hclose htick _ ih =>
    rw [List.cons_append, templateFrom, if_neg (by simpa using hclose),
      if_neg (by simpa using htick), ih]
    simp only [List.length_cons]
    omega

theorem Body.templateFrom_outer {body : Text} (h : Body Hole body) (rest : Text) :
    templateFrom .outer (body ++ '\x60' :: rest) = body.length + 1 := by
  rw [h.templateFrom_append .outer rfl
    (fun _ hinside rest => hinside.templateFrom_append rest), templateFrom_close]

/-! ### What is passed over the grammar allows -/

theorem Body.pass {Hole : Text → Prop} {place : Place} (hplace : place.isLiteral = true) {c : Char}
    {body rest : Text} (hpass : place.Passes c (body ++ '\x60' :: rest)) (htick : c ≠ '\x60')
    (h : Body Hole body) : Body Hole (c :: body) := by
  obtain ⟨hescape, hopen⟩ := hpass hplace
  refine .plain htick (fun hc => by simpa using hescape hc) ?_ h
  rintro ⟨hc, hhead⟩
  obtain ⟨body, rfl⟩ := List.head?_eq_some_iff.1 hhead
  exact hopen hc rfl

theorem Leads.escape {place : Place} (hplace : place.isLiteral = true) (c : Char) {text : Text}
    (h : Leads place text) : Leads place ('\\' :: c :: text) := by
  cases h with
  | outer hbody => exact .outer (.escaped c hbody)
  | inner hbody hrest => exact .inner (.escaped c hbody) hrest
  | hole | innerHole => simp [Place.isLiteral] at hplace

theorem Leads.enter {place : Place} (hplace : place.isLiteral = true) {text : Text}
    (h : Leads place.opened text) : Leads place ('$' :: '\x7b' :: text) := by
  cases place with
  | outer =>
    obtain ⟨⟩ | ⟨hinside, ⟨hbody⟩⟩ := h
    exact .outer (.hole hinside hbody)
  | inner =>
    cases h with
    | innerHole hinside hrest =>
      cases hrest with
      | inner hbody hrest => simpa using Leads.inner (.hole hinside hbody) hrest
  | hole | innerHole => simp [Place.isLiteral] at hplace

/-- **One character further back**, at a place where it neither escapes nor opens anything. -/
theorem Leads.pass {place : Place} {c : Char} {text rest : Text}
    (hpass : place.Passes c (text ++ '\x60' :: rest)) (hclose : place = .outer → c ≠ '\x60')
    (h : Leads (place.after c) text) : Leads place (c :: text) := by
  cases place with
  | outer =>
    cases h with
    | outer hbody => exact .outer (hbody.pass rfl hpass (hclose rfl))
  | inner =>
    by_cases htick : c = '\x60'
    · subst htick
      exact Leads.inner .nil h
    · rw [Place.after, if_neg (by simpa using htick)] at h
      cases h with
      | inner hbody hrest =>
        rw [List.append_assoc, List.cons_append] at hpass
        exact .inner (hbody.pass rfl hpass htick) hrest
  | hole =>
    by_cases hbrace : c = '\x7d'
    · subst hbrace
      exact Leads.hole .nil h
    by_cases htick : c = '\x60'
    · subst htick
      cases (h : Leads .inner text) with
      | inner hbody hrest =>
        cases hrest with
        | hole hinside hrest => simpa using Leads.hole (.nested hbody hinside) hrest
    · rw [Place.after, if_neg (by simpa using hbrace), if_neg (by simpa using htick)] at h
      cases h with
      | hole hinside hrest => exact Leads.hole (.plain hbrace htick hinside) hrest
  | innerHole =>
    by_cases hbrace : c = '\x7d'
    · subst hbrace
      exact Leads.innerHole innerHole_nil h
    · rw [Place.after, if_neg (by simpa using hbrace)] at h
      cases h with
      | innerHole hinside hrest => exact Leads.innerHole (hinside.cons hbrace) hrest

/-- The scan stops at the end of the text, or else just past a backtick to which the text before it
leads. -/
def Stops (place : Place) (text : Text) : Prop :=
  templateFrom place text = text.length ∨ ∃ front rest, Leads place front ∧
    text = front ++ '\x60' :: rest ∧ templateFrom place text = front.length + 1

theorem Stops.step {place next : Place} (step : Text) {text : Text}
    (hstep : templateFrom place (step ++ text) = step.length + templateFrom next text)
    (hleads : ∀ front rest, text = front ++ '\x60' :: rest → Leads next front →
      Leads place (step ++ front))
    (h : Stops next text) : Stops place (step ++ text) := by
  rcases h with h | ⟨front, rest, hfront, htext, h⟩
  · refine Or.inl ?_
    rw [hstep, h, List.length_append]
  · refine Or.inr ⟨step ++ front, rest, hleads front rest htext hfront, ?_, ?_⟩
    · rw [htext, List.append_assoc]
    · rw [hstep, h, List.length_append, Nat.add_assoc]

/-- **Where the scan stops, the literal ends.** -/
theorem stops (place : Place) (text : Text) : Stops place text := by
  induction place, text using template_induction with
  | nil place => exact Or.inl (by simp [templateFrom])
  | escape place c tail hplace ih =>
    refine Stops.step ['\\', c] (templateFrom_escape hplace c tail) ?_ ih
    exact fun _ _ _ hfront => hfront.escape hplace c
  | hole place tail hplace ih =>
    refine Stops.step ['$', '\x7b'] (templateFrom_open hplace tail) ?_ ih
    exact fun _ _ _ hfront => hfront.enter hplace
  | close tail => exact Or.inr ⟨[], tail, .outer .nil, rfl, templateFrom_close tail⟩
  | pass place c tail hpass hclose ih =>
    refine Stops.step [c] (templateFrom_pass hpass hclose) ?_ ih
    rintro front rest rfl hfront
    exact hfront.pass hpass hclose

theorem exists_body (text : Text) :
    template text = text.length ∨ ∃ body rest, Body Hole body ∧ text = body ++ '\x60' :: rest ∧
      template text = body.length + 1 := by
  rcases stops .outer text with h | ⟨body, rest, ⟨hbody⟩, htext, h⟩
  · exact Or.inl h
  · exact Or.inr ⟨body, rest, hbody, htext, h⟩

/-- **A text is a body exactly if a backtick behind it ends the literal.**  One more character makes
sure that it is the backtick that ends it, and not the end of the text. -/
theorem body_iff (c : Char) {body : Text} :
    Body Hole body ↔ template (body ++ ['\x60', c]) = body.length + 1 := by
  constructor
  · intro h
    exact h.templateFrom_outer [c]
  · intro h
    rcases exists_body (body ++ ['\x60', c]) with hend | ⟨body', rest, hbody', htext, hend⟩
    · simp [h] at hend
    · have hlength : body.length = body'.length := by omega
      rwa [(List.append_inj htext hlength).1]

instance (body : Text) : Decidable (Body Hole body) :=
  decidable_of_iff' _ (body_iff ' ')

/-- **A template literal ends just past the backtick behind its body.**  A text without such a body
belongs to the literal as a whole.  The token of a language that finds the opening backtick is the
body with the closing one. -/
theorem extent_template :
    (∀ body rest : Text, Body Hole body →
      Opening.template.extent (body ++ '\x60' :: rest) = body.length + 1) ∧
    (∀ text : Text, Opening.template.extent text = text.length ∨
      ∃ body rest, Body Hole body ∧ text = body ++ '\x60' :: rest ∧
        Opening.template.extent text = body.length + 1) ∧
    ∀ (language : Language) (lineStart : Bool) (body rest : Text), Body Hole body →
      language.opening? lineStart ('\x60' :: (body ++ '\x60' :: rest)) = some .template →
        language.token? lineStart ('\x60' :: (body ++ '\x60' :: rest)) =
          some ⟨.template, body ++ ['\x60']⟩ := by
  have hextent : ∀ body rest : Text, Body Hole body →
      Opening.template.extent (body ++ '\x60' :: rest) = body.length + 1 :=
    fun _ rest hbody => hbody.templateFrom_outer rest
  refine ⟨hextent, exists_body, ?_⟩
  intro language lineStart body rest hbody hopening
  refine Language.token?_eq_some_iff.2 ⟨body ++ '\x60' :: rest, rfl, hopening, ?_⟩
  rw [hextent body rest hbody, List.take_length_add_append]
  rfl

/-- An escaped backtick, a hole with two literals in it, of which the first has a backtick in a hole
of its own, and a dollar sign that opens nothing. -/
theorem extent_template_javascript :
    Language.javascript.token? true "`a\\`$$\x7bb + `c$\x7b`\x7dd` + `e`\x7df$` // g`" =
      some ⟨.template, "a\\`$$\x7bb + `c$\x7b`\x7dd` + `e`\x7df$`"⟩ := by
  have hbody : Body Hole "a\\`$$\x7bb + `c$\x7b`\x7dd` + `e`\x7df$" := by decide
  exact extent_template.2.2 .javascript true _ " // g`" hbody (by decide)

end Template

end Literate
