import FlipLoop.Proofs.Expansion
import FlipLoop.Proofs.Grammar
import Mathlib.Logic.Relation

/-!
# Comments and layout

A text may be given more comments and other gaps, as often as one likes, and it is read as before: as the
same program, or with the same error. In the shorthand a comment has no digits and does not part two of
them. All numbers then stay whole, so the expanded texts differ in the same comments and gaps, on which
the tokens do not depend.
-/

namespace FlipLoop

namespace Text

lemma isDigit_eq_false_of_isBlank {c : Char} (h : isBlank c = true) : c.isDigit = false := by
  rw [Bool.eq_false_iff, ne_eq, Char.isDigit_iff_toNat]
  have hzero : '0'.toNat = 48 := rfl
  have hnine : '9'.toNat = 57 := rfl
  simp only [Text.isBlank, blankRanges, List.any_cons, List.any_nil, Bool.or_eq_true,
    Bool.and_eq_true, decide_eq_true_eq, Bool.false_eq_true, or_false] at h
  omega

/-- What stands between two tokens. -/
structure IsGap (text : String) : Prop where
  ne_nil : text.toList ≠ []
  all_isBlank : text.toList.all isBlank = true

lemma IsGap.isBlank {text : String} (h : IsGap text) : ∀ c ∈ text.toList, isBlank c = true :=
  List.all_eq_true.mp h.all_isBlank

lemma IsGap.isDigit_eq_false {text : String} (h : IsGap text) : ∀ c ∈ text.toList, c.isDigit = false :=
  fun c hc => isDigit_eq_false_of_isBlank (h.isBlank c hc)

end Text

/-- One edit of a text: comment characters are put in at a place that is free for them, or a gap is
replaced by another one. -/
inductive Edit (comment : Char → Bool) (free : String → String → Prop) : String → String → Prop
  | insert (a added b : String) (place : free a b) (comments : added.toList.all comment = true) :
    Edit comment free (a ++ b) (a ++ (added ++ b))
  | respace (a gap gap' b : String) (isGap : Text.IsGap gap) (isGap' : Text.IsGap gap') :
    Edit comment free (a ++ (gap ++ b)) (a ++ (gap' ++ b))

lemma Mark.ofChar?_eq_none {c : Char} (h : Token.significant c = false) : ofChar? c = none := by
  rw [Token.significant, Bool.or_eq_false_iff] at h
  have hglyph : Glyph.ofChar? c = none := by simpa using h.2
  rw [ofChar?, hglyph]
  simp [h.1]

namespace Token

/-- Every character that is no glyph and no blank is a comment, and every place is free. -/
def Edited : String → String → Prop :=
  Edit (fun c => !significant c) fun _ _ => True

/-- The text is edited any number of times. -/
def Relaid : String → String → Prop := Relation.ReflTransGen Edited

/-- Comments are deleted. -/
lemma ofChars_append_comments (a b : List Char) {added : List Char}
    (h : ∀ c ∈ added, significant c = false) : ofChars (a ++ (added ++ b)) = ofChars (a ++ b) := by
  have hmarks : added.filterMap Mark.ofChar? = [] :=
    List.filterMap_eq_nil_iff.mpr fun c hc => Mark.ofChar?_eq_none (h c hc)
  simp only [ofChars, List.filterMap_append, hmarks, List.nil_append]

lemma ofChars_blanks_append (b : List Char) {blanks : List Char}
    (h : ∀ c ∈ blanks, Text.isBlank c = true) : ofChars (blanks ++ b) = ofChars b := by
  induction blanks with
  | nil => rfl
  | cons c blanks ih =>
    obtain ⟨hc, hblanks⟩ := List.forall_mem_cons.mp h
    have hsplit := ofChars_append_cons [] (blanks ++ b) hc
    rw [ofChars_nil, List.nil_append, List.nil_append] at hsplit
    rw [List.cons_append, hsplit, ih hblanks]

/-- A gap ends a token, however long it is. -/
lemma ofChars_append_gap (a b : List Char) {gap : String} (h : Text.IsGap gap) :
    ofChars (a ++ (gap.toList ++ b)) = ofChars a ++ ofChars b := by
  obtain ⟨c, blanks, hgap⟩ := List.exists_cons_of_ne_nil h.ne_nil
  obtain ⟨hc, hblanks⟩ := List.forall_mem_cons.mp (hgap ▸ h.isBlank)
  rw [hgap, List.cons_append, ofChars_append_cons a (blanks ++ b) hc, ofChars_blanks_append b hblanks]

lemma Edited.ofText_eq {source edited : String} (h : Edited source edited) :
    ofText edited = ofText source := by
  cases h with
  | insert a added b place comments =>
    simp only [ofText, String.toList_append]
    apply ofChars_append_comments
    simpa using comments
  | respace a gap gap' b isGap isGap' =>
    simp only [ofText, String.toList_append, ofChars_append_gap _ _ isGap, ofChars_append_gap _ _ isGap']

theorem Relaid.ofText_eq {source edited : String} (h : Relaid source edited) :
    ofText edited = ofText source := by
  induction h with
  | refl => rfl
  | tail _ hedit ih => rw [hedit.ofText_eq, ih]

end Token

namespace Shorthand

/-- A digit is no comment, and the place between two digits is not free. -/
def Edited : String → String → Prop :=
  Edit (fun c => !Token.significant c && !c.isDigit) fun a b => Apart a.toList b.toList

/-- The text is edited any number of times. -/
def Relaid : String → String → Prop := Relation.ReflTransGen Edited

/-- The tokens of what a text is expanded to. -/
def tokens (text : List Char) : Except SourceError (List Token) :=
  (expandChars text).map Token.ofChars

lemma ofShorthand_eq (source : String) :
    Program.ofShorthand source = (tokens source.toList).bind Program.ofTokens := by
  unfold Program.ofShorthand expand tokens
  cases expandChars source.toList with
  | error fault => rfl
  | ok x =>
    have htokens : Token.ofText (String.ofList x) = Token.ofChars x := by
      rw [Token.ofText, String.toList_ofList]
    exact congrArg Program.ofTokens htokens

lemma Apart.append_right {a b added : List Char} (h : Apart a b)
    (hadded : ∀ c ∈ added, c.isDigit = false) : Apart a (added ++ b) := by
  cases added with
  | nil => exact h
  | cons c added => exact .of_right (hadded c List.mem_cons_self)

lemma Apart.of_isGap {gap : String} (h : Text.IsGap gap) (a b : List Char) : Apart a (gap.toList ++ b) := by
  obtain ⟨c, blanks, hgap⟩ := List.exists_cons_of_ne_nil h.ne_nil
  rw [hgap]
  exact .of_right (h.isDigit_eq_false c (by simp [hgap]))

/-- What has no digits stays as it is between the expansions of the texts around it. -/
lemma expandChars_append_append {a b middle : List Char} (h : ∀ c ∈ middle, c.isDigit = false)
    (hapart : Apart a (middle ++ b)) :
    expandChars (a ++ (middle ++ b)) =
      (expandChars a).bind fun x => (expandChars b).map fun y => x ++ (middle ++ y) := by
  rw [expandChars_append hapart, expandChars_append_of_not_isDigit h]
  cases expandChars b <;> rfl

/-- Where one text without digits is as good as another among tokens, it is so in the shorthand. The
numbers around it, and their faults, stay the same. -/
lemma tokens_append_append {a b middle middle' : List Char} (h : ∀ c ∈ middle, c.isDigit = false)
    (h' : ∀ c ∈ middle', c.isDigit = false) (hapart : Apart a (middle ++ b))
    (hapart' : Apart a (middle' ++ b))
    (htokens : ∀ x y, Token.ofChars (x ++ (middle' ++ y)) = Token.ofChars (x ++ (middle ++ y))) :
    tokens (a ++ (middle' ++ b)) = tokens (a ++ (middle ++ b)) := by
  rw [tokens, tokens, expandChars_append_append h hapart, expandChars_append_append h' hapart']
  cases expandChars a with
  | error fault => rfl
  | ok x =>
    cases expandChars b with
    | error fault => rfl
    | ok y => exact congrArg Except.ok (htokens x y)

lemma Edited.tokens_eq {source edited : String} (h : Edited source edited) :
    tokens edited.toList = tokens source.toList := by
  cases h with
  | insert a added b place comments =>
    have hcomments : ∀ c ∈ added.toList, Token.significant c = false ∧ c.isDigit = false := by
      simpa using comments
    have hdigits : ∀ c ∈ added.toList, c.isDigit = false := fun c hc => (hcomments c hc).2
    have hnone : ∀ c ∈ ([] : List Char), c.isDigit = false := by simp
    rw [String.toList_append, String.toList_append, String.toList_append]
    apply tokens_append_append hnone hdigits place (place.append_right hdigits)
    intro x y
    exact Token.ofChars_append_comments x y fun c hc => (hcomments c hc).1
  | respace a gap gap' b isGap isGap' =>
    simp only [String.toList_append]
    apply tokens_append_append isGap.isDigit_eq_false isGap'.isDigit_eq_false (.of_isGap isGap _ _)
      (.of_isGap isGap' _ _)
    intro x y
    rw [Token.ofChars_append_gap x y isGap, Token.ofChars_append_gap x y isGap']

theorem Relaid.tokens_eq {source edited : String} (h : Relaid source edited) :
    tokens edited.toList = tokens source.toList := by
  induction h with
  | refl => rfl
  | tail _ hedit ih => rw [hedit.tokens_eq, ih]

end Shorthand

/-- Comments and gaps may be edited as one likes, and the text is read as the same program or with the same
error, in both notations. -/
theorem reading_ignores_layout (source edited : String) :
    (Shorthand.Relaid source edited → Program.ofShorthand edited = Program.ofShorthand source) ∧
      (Token.Relaid source edited → Program.ofSource edited = Program.ofSource source) := by
  constructor
  · intro h
    rw [Shorthand.ofShorthand_eq, Shorthand.ofShorthand_eq, h.tokens_eq]
  · intro h
    rw [Program.ofSource, Program.ofSource, h.ofText_eq]

/-- A wider gap and comments around a number, a comment in front of a number that is too large, and
comments with digits in a text where an operand is missing. -/
theorem reading_ignores_layout_of_edited_texts :
    (Shorthand.Relaid "/ 12 0 \\" "/\u2003\tx12\u00e9 0 \\" ∧
      Program.ofShorthand "/\u2003\tx12\u00e9 0 \\" = .ok [.enter 12, .flip 0, .back]) ∧
    (Shorthand.Relaid "1048577 |!" "n:1048577 |!" ∧
      Program.ofShorthand "n:1048577 |!" = .error (.variableTooLarge "1048577")) ∧
    Token.Relaid "|| / \\" "|7| 8/ \\" ∧
      Program.ofSource "|7| 8/ \\" = .error (.loopWithoutVariable 2) := by
  have hloop : Shorthand.Relaid "/ 12 0 \\" "/\u2003\tx12\u00e9 0 \\" := by
    apply Relation.ReflTransGen.head
    · exact .respace "/" " " "\u2003\t" "12 0 \\" ⟨by decide, by decide⟩ ⟨by decide, by decide⟩
    apply Relation.ReflTransGen.head
    · exact .insert "/\u2003\t" "x" "12 0 \\" (.of_left (by simp)) (by decide)
    apply Relation.ReflTransGen.single
    exact .insert "/\u2003\tx12" "\u00e9" " 0 \\" (.of_right rfl) (by decide)
  have hlarge : Shorthand.Relaid "1048577 |!" "n:1048577 |!" := by
    apply Relation.ReflTransGen.single
    exact .insert "" "n:" "1048577 |!" (.of_left (by simp)) (by decide)
  have hslash : Token.Relaid "|| / \\" "|7| 8/ \\" := by
    apply Relation.ReflTransGen.head
    · exact .insert "|" "7" "| / \\" trivial (by decide)
    apply Relation.ReflTransGen.single
    exact .insert "|7| " "8" "/ \\" trivial (by decide)
  have hread := (reading_ignores_layout _ _).1 hloop
  have hfault := (reading_ignores_layout _ _).1 hlarge
  have hmissing := (reading_ignores_layout _ _).2 hslash
  exact ⟨⟨hloop, hread.trans (by decide)⟩, ⟨hlarge, hfault.trans (by decide)⟩, hslash,
    hmissing.trans (by decide)⟩

/-- A comment between two digits makes two numbers of one. -/
example : Program.ofShorthand "1x2" ≠ Program.ofShorthand "12" := by decide

end FlipLoop
