import GraphQuery.Text.Decimal

/-!
# Templates

The words of a line of the log are a template and arguments for its places. A place stands between
braces, and a brace that is doubled stands for one. An argument is copied as it is: braces in it are
no places.

A place takes the next argument, or the one whose number stands in it, and shows it as it is, or as
a specification behind a colon asks for. What specifications do to a text is left open
(`Template.Formats`).

* `Template.fill?` fills in the arguments, and fails where the template is malformed or an argument
  is missing.
* `Template.Form` is a template of empty places between plain words. `Form.fill?_template`: it can
  always be filled in.
-/

namespace GraphQuery.Template

/-- Whether a byte has a meaning in templates. -/
def isBrace (b : UInt8) : Bool :=
  b = 0x7b || b = 0x7d

/-- What a specification makes of an argument, where it can be applied to a text. -/
abbrev Formats := Text → Text → Option Text

/-! ### Places -/

/-- How the places so far have named their arguments: by their order or by numbers. -/
inductive Numbering where
  /-- The next place in order takes this argument. -/
  | inOrder (next : Nat)
  | byNumber
  deriving DecidableEq, Repr

/-- The argument of a place with or without a number, and how the places are numbered from there on.
Both ways do not go together. -/
def Numbering.choose? : Numbering → Option Nat → Option (Nat × Numbering)
  | .inOrder next, none => some (next, .inOrder (next + 1))
  | .inOrder 0, some n => some (n, .byNumber)
  | .byNumber, some n => some (n, .byNumber)
  | _, _ => none

/-- The number of an argument, where there are digits; no number begins with a zero but zero. -/
def readNumber? (digits : Text) : Option (Option Nat) :=
  match digits with
  | [] => some none
  | b :: rest => if b = 0x30 ∧ rest ≠ [] then none else some (some (ofDecimal digits))

/-- The number and the specification that stand in a place. -/
def readPlace? (inside : Text) : Option (Option Nat × Text) := do
  let number ← readNumber? (inside.takeWhile isDigit)
  match inside.dropWhile isDigit with
  | [] => some (number, [])
  | b :: specification => if b = 0x3a then some (number, specification) else none

section Fill

variable (formats : Formats) (args : List Text)

/-- What a place shows, and how the places are numbered from there on. -/
def fillPlace? (numbering : Numbering) (inside : Text) : Option (Text × Numbering) := do
  let (number, specification) ← readPlace? inside
  let (i, numbering) ← numbering.choose? number
  let arg ← args[i]?
  let shown ← if specification.isEmpty then some arg else formats specification arg
  some (shown, numbering)

/-- Where a template is being read. -/
inductive Position where
  | words
  /-- Behind an opening brace and some bytes. -/
  | place (inside : Text)
  /-- Behind a closing brace, which has to be doubled. -/
  | closing
  deriving DecidableEq, Repr

/-- What is left of a template with the arguments in its places. A specification cannot have places
of its own, as no text is a width. -/
def fillFrom? : Position → Numbering → Text → Option Text
  | .words, _, [] => some []
  | .place _, _, [] => none
  | .closing, _, [] => none
  | .words, numbering, b :: rest =>
    if b = 0x7b then fillFrom? (.place []) numbering rest
    else if b = 0x7d then fillFrom? .closing numbering rest
    else (fillFrom? .words numbering rest).map (b :: ·)
  | .place inside, numbering, b :: rest =>
    if b = 0x7b then
      if inside.isEmpty then (fillFrom? .words numbering rest).map (b :: ·) else none
    else if b = 0x7d then
      match fillPlace? formats args numbering inside with
      | some (shown, numbering) => (fillFrom? .words numbering rest).map (shown ++ ·)
      | none => none
    else fillFrom? (.place (inside ++ [b])) numbering rest
  | .closing, numbering, b :: rest =>
    if b = 0x7d then (fillFrom? .words numbering rest).map (b :: ·) else none

/-- The template with the arguments in its places; arguments that no place takes are dropped. -/
def fill? (template : Text) : Option Text :=
  fillFrom? formats args .words (.inOrder 0) template

end Fill

/-! ### Forms -/

/-- A place that takes the next argument as it is. -/
def place : Text := utf8 "\x7b\x7d"

/-- Words without a place in them. -/
def IsPlain (words : Text) : Prop :=
  ∀ b ∈ words, isBrace b = false

instance (words : Text) : Decidable (IsPlain words) :=
  decidable_of_iff (words.all fun b => !isBrace b) (by simp [IsPlain])

/-- A template of some empty places between plain words. -/
structure Form (places : Nat) where
  first : Text
  /-- The words behind each of the places. -/
  after : Vector Text places
  plain : ∀ words ∈ first :: after.toList, IsPlain words

namespace Form

variable {places : Nat}

/-- The template that a form is. -/
def template (f : Form places) : Text :=
  Text.joinWith place (f.first :: f.after.toList)

/-- The words of a form with an argument in each of its places. -/
def fill (f : Form places) (args : Vector Text places) : Text :=
  f.first ++ (List.zipWith (· ++ ·) args.toList f.after.toList).flatten

/-- The form of words with one place behind them. -/
def ending (words : Text) (h : IsPlain words) : Form 1 where
  first := words
  after := #v[[]]
  plain := by simpa [IsPlain] using h

@[simp] theorem fill_ending (words : Text) (h : IsPlain words) (arg : Text) :
    (ending words h).fill #v[arg] = words ++ arg := by
  simp [ending, fill]

end Form

section Laws

variable {formats : Formats} {args : List Text}

/-- Plain words stand for themselves. -/
theorem fillFrom?_append {words : Text} (h : IsPlain words) (numbering : Numbering) (rest : Text) :
    fillFrom? formats args .words numbering (words ++ rest) =
      (fillFrom? formats args .words numbering rest).map (words ++ ·) := by
  induction words with
  | nil => simp
  | cons b words ih =>
    obtain ⟨hb, hwords⟩ := List.forall_mem_cons.mp h
    obtain ⟨hopening, hclosing⟩ : b ≠ 0x7b ∧ b ≠ 0x7d := by simpa [isBrace] using hb
    rw [List.cons_append, fillFrom?, if_neg hopening, if_neg hclosing, ih hwords, Option.map_map]
    rfl

/-- An empty place is filled with the next argument, whatever that is. -/
theorem fillFrom?_place_append {n : Nat} {arg : Text} (h : args[n]? = some arg) (rest : Text) :
    fillFrom? formats args .words (.inOrder n) (place ++ rest) =
      (fillFrom? formats args .words (.inOrder (n + 1)) rest).map (arg ++ ·) := by
  have hplace : fillPlace? formats args (.inOrder n) [] = some (arg, .inOrder (n + 1)) := by
    rw [fillPlace?]
    simp [readPlace?, readNumber?, Numbering.choose?, h]
  have hopen : fillFrom? formats args .words (.inOrder n) (place ++ rest) =
      fillFrom? formats args (.place []) (.inOrder n) (0x7d :: rest) := rfl
  rw [hopen, fillFrom?]
  simp only [show (0x7d : UInt8) ≠ 0x7b by decide, if_false, if_true, hplace]

/-- Places between plain words are filled one after the other, from some argument on. -/
theorem fillFrom?_joinWith {first : Text} {after : List Text}
    (hplain : ∀ words ∈ first :: after, IsPlain words) {n : Nat}
    (hlength : args.length = n + after.length) :
    fillFrom? formats args .words (.inOrder n) (Text.joinWith place (first :: after)) =
      some (first ++ (List.zipWith (· ++ ·) (args.drop n) after).flatten) := by
  induction after generalizing first n with
  | nil =>
    have hend : fillFrom? formats args .words (.inOrder n) (first ++ []) = _ :=
      fillFrom?_append (hplain first List.mem_cons_self) (.inOrder n) []
    simpa [fillFrom?] using hend
  | cons next after ih =>
    obtain ⟨hfirst, hafter⟩ := List.forall_mem_cons.mp hplain
    have hn : n < args.length := by
      rw [hlength, List.length_cons]
      omega
    have htail := ih hafter (n := n + 1) (by rw [hlength, List.length_cons]; omega)
    rw [Text.joinWith_cons (by simp), List.append_assoc, fillFrom?_append hfirst,
      fillFrom?_place_append (List.getElem?_eq_getElem hn), htail, Option.map_some,
      Option.map_some, List.drop_eq_getElem_cons hn, List.zipWith_cons_cons, List.flatten_cons,
      List.append_assoc]

/-- **The places of a form are filled one after the other**, and the arguments are copied as they
are. -/
theorem Form.fill?_template {places : Nat} (formats : Formats) (f : Form places)
    (args : Vector Text places) : fill? formats args.toList f.template = some (f.fill args) := by
  rw [fill?, Form.template, fillFrom?_joinWith f.plain (by simp), List.drop_zero, Form.fill]

/-- A text in a place is copied, with the braces that are in it. -/
theorem fill?_place (formats : Formats) (text : Text) :
    fill? formats [text] place = some text := by
  let form : Form 1 := .ending [] (by simp [IsPlain])
  have hfilled : fill? formats [text] form.template = some (form.fill #v[text]) :=
    form.fill?_template formats #v[text]
  have hform : form.fill #v[text] = text := Form.fill_ending [] _ text
  rwa [hform] at hfilled

end Laws

end GraphQuery.Template
