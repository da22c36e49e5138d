import FlipLoop.Proofs.Expansion

/-!
# Numbers and other characters of the shorthand

Every text is in one way a sequence of numbers, each with all of its digits, and of single characters
that are no digits. The expansion replaces each number by the bars of its variable, and it fails at the
first number that is too large.
-/

namespace FlipLoop.Shorthand

/-- A number as it is written, or a character that belongs to none. -/
inductive Piece where
  | number (digits : List Char)
  | other (c : Char)

namespace Piece

def chars : Piece → List Char
  | number digits => digits
  | other c => [c]

def Valid : Piece → Prop
  | number digits => digits ≠ [] ∧ ∀ d ∈ digits, d.isDigit = true
  | other c => c.isDigit = false

def IsNumber : Piece → Prop
  | number _ => True
  | other _ => False

/-- The number is larger than every variable of the shorthand. -/
def TooLarge : Piece → Prop
  | number digits => maxVariable < Nat.ofDigitChars 10 digits 0
  | other _ => False

instance : DecidablePred TooLarge
  | number digits => inferInstanceAs (Decidable (maxVariable < Nat.ofDigitChars 10 digits 0))
  | other _ => inferInstanceAs (Decidable False)

/-- One bar more than the number says, and every other character as it is. -/
def expanded : Piece → List Char
  | number digits => List.replicate (Nat.ofDigitChars 10 digits 0 + 1) '|'
  | other c => [c]

end Piece

/-- The pieces of a text. No two numbers stand side by side, so each has all of its digits. -/
structure Segmentation (text : List Char) (pieces : List Piece) : Prop where
  flatMap_eq : pieces.flatMap Piece.chars = text
  valid : ∀ piece ∈ pieces, piece.Valid
  maximal : pieces.IsChain fun a b => ¬(a.IsNumber ∧ b.IsNumber)

/-- The pieces of a text with `c` in front of it, where these are the pieces of the text. -/
def prepend (c : Char) (pieces : List Piece) : List Piece :=
  if c.isDigit then
    match pieces with
    | .number digits :: pieces => .number (c :: digits) :: pieces
    | pieces => .number [c] :: pieces
  else
    .other c :: pieces

def cut (text : List Char) : List Piece :=
  text.foldr prepend []

section Cutting

variable {text : List Char} {piece : Piece} {pieces : List Piece}

lemma Segmentation.prepend (h : Segmentation text pieces) (c : Char) :
    Segmentation (c :: text) (prepend c pieces) := by
  obtain ⟨rfl, hvalid, hmaximal⟩ := h
  unfold Shorthand.prepend
  by_cases hc : c.isDigit
  · rw [if_pos hc]
    cases pieces with
    | nil => exact ⟨rfl, by simp [Piece.Valid, hc], .singleton _⟩
    | cons piece pieces =>
      obtain ⟨hpiece, hpieces⟩ := List.forall_mem_cons.mp hvalid
      cases piece with
      | number digits =>
        refine ⟨rfl, List.forall_mem_cons.mpr ⟨?_, hpieces⟩, ?_⟩
        · exact ⟨by simp, List.forall_mem_cons.mpr ⟨hc, hpiece.2⟩⟩
        · cases hmaximal with
          | singleton => exact .singleton _
          | cons_cons hne hrest => exact .cons_cons hne hrest
      | other d =>
        refine ⟨rfl, List.forall_mem_cons.mpr ⟨by simp [Piece.Valid, hc], hvalid⟩, ?_⟩
        exact .cons_cons (fun hboth => hboth.2) hmaximal
  · rw [if_neg hc]
    refine ⟨rfl, List.forall_mem_cons.mpr ⟨by simpa [Piece.Valid] using hc, hvalid⟩, ?_⟩
    cases pieces with
    | nil => exact .singleton _
    | cons piece pieces => exact .cons_cons (fun hboth => hboth.1) hmaximal

theorem segmentation_cut (text : List Char) : Segmentation text (cut text) := by
  induction text with
  | nil => exact ⟨rfl, by simp [cut], .nil⟩
  | cons c text ih => exact ih.prepend c

/-- A number in front of which no other one stands is put together from its digits. -/
lemma foldr_prepend_digits {digits : List Char} (hne : digits ≠ [])
    (hd : ∀ d ∈ digits, d.isDigit = true) (hp : ∀ piece ∈ pieces.head?, ¬piece.IsNumber) :
    digits.foldr Shorthand.prepend pieces = .number digits :: pieces := by
  induction digits with
  | nil => exact absurd rfl hne
  | cons d digits ih =>
    obtain ⟨hfirst, hdigits⟩ := List.forall_mem_cons.mp hd
    rw [List.foldr_cons]
    by_cases hnil : digits = []
    · subst hnil
      rw [List.foldr_nil]
      unfold Shorthand.prepend
      rw [if_pos hfirst]
      cases pieces with
      | nil => rfl
      | cons piece pieces =>
        cases piece with
        | number digits => exact absurd trivial (hp _ rfl)
        | other c => rfl
    · rw [ih hnil hdigits, Shorthand.prepend, if_pos hfirst]

lemma Segmentation.tail (h : Segmentation text (piece :: pieces)) :
    text = piece.chars ++ pieces.flatMap Piece.chars ∧ piece.Valid ∧
      Segmentation (pieces.flatMap Piece.chars) pieces := by
  obtain ⟨hpiece, hpieces⟩ := List.forall_mem_cons.mp h.valid
  exact ⟨h.flatMap_eq.symm, hpiece, rfl, hpieces, h.maximal.tail⟩

lemma Segmentation.not_isNumber_head (h : Segmentation text (piece :: pieces)) (hn : piece.IsNumber) :
    ∀ next ∈ pieces.head?, ¬next.IsNumber := by
  intro next hnext hnumber
  exact h.maximal.rel_head? hnext ⟨hn, hnumber⟩

/-- A text has no other pieces than those it is cut into. -/
theorem Segmentation.eq_cut (h : Segmentation text pieces) : pieces = cut text := by
  induction pieces generalizing text with
  | nil =>
    obtain rfl : [] = text := h.flatMap_eq
    rfl
  | cons piece pieces ih =>
    obtain ⟨rfl, hpiece, hrest⟩ := h.tail
    rw [cut, List.foldr_append, ← cut, ← ih hrest]
    cases piece with
    | number digits =>
      exact (foldr_prepend_digits hpiece.1 hpiece.2 (h.not_isNumber_head trivial)).symm
    | other c =>
      have hc : ¬c.isDigit = true := Bool.eq_false_iff.mp hpiece
      rw [Piece.chars, List.foldr_cons, List.foldr_nil]
      unfold Shorthand.prepend
      rw [if_neg hc]

lemma Segmentation.apart (h : Segmentation text (piece :: pieces)) :
    Apart piece.chars (pieces.flatMap Piece.chars) := by
  obtain ⟨-, hpiece, hrest⟩ := h.tail
  cases piece with
  | other c => exact .of_left (by simpa [Piece.Valid, Piece.chars] using hpiece)
  | number digits =>
    cases pieces with
    | nil =>
      intro c _ d hd
      cases hd
    | cons next pieces =>
      cases next with
      | number digits' => exact absurd trivial (h.not_isNumber_head trivial _ rfl)
      | other c => exact .of_right hrest.tail.2.1

end Cutting

section Expanding

variable {text : List Char} {piece : Piece} {pieces : List Piece}

lemma expandChars_piece (hv : piece.Valid) (hsmall : ¬piece.TooLarge) :
    expandChars piece.chars = .ok piece.expanded := by
  cases piece with
  | other c => exact expandChars_of_not_isDigit (by simpa [Piece.Valid, Piece.chars] using hv)
  | number digits =>
    have hall : digits.all Char.isDigit = true := List.all_eq_true.mpr hv.2
    have hle : Nat.ofDigitChars 10 digits 0 ≤ maxVariable := Nat.le_of_not_lt hsmall
    rw [Piece.chars, expandChars_digits hv.1 hv.2, expandPiece, if_pos hall, Text.boundedNumber?_eq,
      if_pos hle]
    rfl

lemma expandChars_tooLarge {digits : List Char} (hv : (Piece.number digits).Valid)
    (hlarge : (Piece.number digits).TooLarge) :
    expandChars digits = .error (.variableTooLarge (String.ofList digits)) := by
  have hall : digits.all Char.isDigit = true := List.all_eq_true.mpr hv.2
  rw [expandChars_digits hv.1 hv.2, expandPiece, if_pos hall, Text.boundedNumber?_eq,
    if_neg (Nat.not_le_of_lt hlarge)]

/-- What the expansion of a text comes to. -/
inductive Expansion (text : List Char) (pieces : List Piece) : Prop
  | replaced (small : ∀ piece ∈ pieces, ¬piece.TooLarge)
    (result : expandChars text = .ok (pieces.flatMap Piece.expanded))
  | fails (front : List Piece) (digits : List Char) (behind : List Piece)
    (split : pieces = front ++ .number digits :: behind) (small : ∀ piece ∈ front, ¬piece.TooLarge)
    (large : (Piece.number digits).TooLarge)
    (result : expandChars text = .error (.variableTooLarge (String.ofList digits)))

/-- The expansion goes through the pieces of a text up to the first number that is too large. -/
theorem Segmentation.expansion (h : Segmentation text pieces) : Expansion text pieces := by
  induction pieces generalizing text with
  | nil =>
    obtain rfl : [] = text := h.flatMap_eq
    exact .replaced (by simp) rfl
  | cons piece pieces ih =>
    obtain ⟨rfl, hpiece, hrest⟩ := h.tail
    have hcut := expandChars_append h.apart
    by_cases hlarge : piece.TooLarge
    · cases piece with
      | other c => exact absurd hlarge id
      | number digits =>
        refine .fails [] digits pieces rfl (by simp) hlarge ?_
        rw [hcut, Piece.chars, expandChars_tooLarge hpiece hlarge]
        rfl
    · rw [expandChars_piece hpiece hlarge] at hcut
      cases ih hrest with
      | replaced small result =>
        refine .replaced (List.forall_mem_cons.mpr ⟨hlarge, small⟩) ?_
        rw [hcut, result]
        rfl
      | fails front digits behind split small large result =>
        refine .fails (piece :: front) digits behind ?_ (List.forall_mem_cons.mpr ⟨hlarge, small⟩) large ?_
        · rw [split, List.cons_append]
        · rw [hcut, result]
          rfl

lemma not_isDigit_of_mem_expanded (hv : piece.Valid) : ∀ c ∈ piece.expanded, c.isDigit = false := by
  cases piece with
  | other c => simpa [Piece.Valid, Piece.expanded] using hv
  | number digits =>
    intro c hc
    rw [List.eq_of_mem_replicate hc]
    rfl

end Expanding

lemma expand_of_expandChars {source : String} {x : List Char} (h : expandChars source.toList = .ok x) :
    expand source = .ok (String.ofList x) := by
  rw [expand, h]
  rfl

lemma expandChars_of_expand {source text : String} (h : expand source = .ok text) :
    expandChars source.toList = .ok text.toList := by
  unfold expand at h
  cases hx : expandChars source.toList with
  | error fault =>
    rw [hx] at h
    cases h
  | ok x =>
    rw [hx] at h
    rw [← Except.ok.inj h, String.toList_ofList]

/-- What is expanded has no numbers left. -/
lemma not_isDigit_of_expandChars {text x : List Char} (h : expandChars text = .ok x) :
    ∀ c ∈ x, c.isDigit = false := by
  have hcut := segmentation_cut text
  cases hcut.expansion with
  | replaced small result =>
    obtain rfl := Except.ok.inj (result.symm.trans h)
    intro c hc
    obtain ⟨piece, hpiece, hc⟩ := List.mem_flatMap.mp hc
    exact not_isDigit_of_mem_expanded (hcut.valid piece hpiece) c hc
  | fails front digits behind split small large result => cases result.symm.trans h

end FlipLoop.Shorthand

namespace FlipLoop

/-- The expansion of the shorthand against the pieces of the text. A text has one segmentation. It is
expanded exactly if none of its numbers is too large, each number then being replaced by its bars; if
not, the first number that is too large is reported as it is written. What is expanded has no digits and
is expanded to itself, and two texts between which no two digits meet are expanded one by one. -/
theorem expand_replaces_numbers (source : String) :
    (∃! pieces, Shorthand.Segmentation source.toList pieces) ∧
      (∀ pieces, Shorthand.Segmentation source.toList pieces →
        ((∃ text, Shorthand.expand source = .ok text) ↔ ∀ piece ∈ pieces, ¬piece.TooLarge) ∧
          ((∀ piece ∈ pieces, ¬piece.TooLarge) →
            Shorthand.expand source =
              .ok (String.ofList (pieces.flatMap Shorthand.Piece.expanded))) ∧
          ((¬∀ piece ∈ pieces, ¬piece.TooLarge) →
            ∃ front digits behind, pieces = front ++ .number digits :: behind ∧
              (∀ piece ∈ front, ¬piece.TooLarge) ∧ (Shorthand.Piece.number digits).TooLarge ∧
              Shorthand.expand source = .error (.variableTooLarge (String.ofList digits)))) ∧
      (∀ text, Shorthand.expand source = .ok text →
        (∀ c ∈ text.toList, c.isDigit = false) ∧ Shorthand.expand text = .ok text) ∧
      ∀ other text text', Shorthand.expand source = .ok text → Shorthand.expand other = .ok text' →
        ((∀ c ∈ source.toList.getLast?, c.isDigit = false) ∨
          ∀ c ∈ other.toList.head?, c.isDigit = false) →
        Shorthand.expand (source ++ other) = .ok (text ++ text') := by
  refine ⟨?_, ?_, ?_, ?_⟩
  · refine ⟨Shorthand.cut source.toList, Shorthand.segmentation_cut _, ?_⟩
    exact fun pieces h => h.eq_cut
  · intro pieces h
    cases h.expansion with
    | replaced small result =>
      have hexpand := Shorthand.expand_of_expandChars result
      exact ⟨⟨fun _ => small, fun _ => ⟨_, hexpand⟩⟩, fun _ => hexpand, fun hnot => absurd small hnot⟩
    | fails front digits behind split small large result =>
      have hexpand : Shorthand.expand source = .error (.variableTooLarge (String.ofList digits)) := by
        rw [Shorthand.expand, result]
        rfl
      have hlarge : ¬∀ piece ∈ pieces, ¬piece.TooLarge := by
        intro hall
        exact hall (.number digits) (by simp [split]) large
      refine ⟨⟨?_, fun hall => absurd hall hlarge⟩, fun hall => absurd hall hlarge, fun _ => ?_⟩
      · rintro ⟨text, htext⟩
        cases hexpand.symm.trans htext
      · exact ⟨front, digits, behind, split, small, large, hexpand⟩
  · intro text h
    have hdigits := Shorthand.not_isDigit_of_expandChars (Shorthand.expandChars_of_expand h)
    refine ⟨hdigits, ?_⟩
    have hsame := Shorthand.expand_of_expandChars (Shorthand.expandChars_of_not_isDigit hdigits)
    rwa [String.ofList_toList] at hsame
  · intro other text text' h h' hmeet
    have hapart : Shorthand.Apart source.toList other.toList := by
      intro c hc d hd
      rcases hmeet with hlast | hhead
      · rw [Shorthand.joined, hlast c hc, Bool.false_and]
      · rw [Shorthand.joined, hhead d hd, Bool.and_false]
    have hboth : Shorthand.expandChars (source ++ other).toList = .ok (text.toList ++ text'.toList) := by
      rw [String.toList_append, Shorthand.expandChars_append hapart,
        Shorthand.expandChars_of_expand h, Shorthand.expandChars_of_expand h']
      rfl
    rw [Shorthand.expand_of_expandChars hboth, ← String.toList_append, String.ofList_toList]

/-- Leading zeros, a digit of another script, a number next to a bar, and two numbers that are too
large. -/
theorem expand_of_mixed_texts :
    Shorthand.expand "002x\u06630|" = .ok "|||x\u0663||" ∧
      Shorthand.expand "|||x\u0663||" = .ok "|||x\u0663||" ∧
      Shorthand.expand ("002x\u06630|" ++ "1") = .ok ("|||x\u0663||" ++ "||") ∧
      Shorthand.expand "1048577 2000000" = .error (.variableTooLarge "1048577") := by
  obtain ⟨-, hmixed, hagain, hjoin⟩ := expand_replaces_numbers "002x\u06630|"
  obtain ⟨-, hlarge, -⟩ := expand_replaces_numbers "1048577 2000000"
  have hok : Shorthand.expand "002x\u06630|" = .ok "|||x\u0663||" :=
    (hmixed _ (Shorthand.segmentation_cut _)).2.1 (by decide)
  have hpieces : Shorthand.Segmentation "1048577 2000000".toList
      [.number "1048577".toList, .other ' ', .number "2000000".toList] := by
    refine ⟨by decide, ?_, ?_⟩
    · simp [Shorthand.Piece.Valid]
    · simp [Shorthand.Piece.IsNumber]
  obtain ⟨-, -, hfails⟩ := hlarge _ hpieces
  obtain ⟨front, digits, behind, hsplit, hsmall, -, hexpand⟩ := hfails (by decide)
  have hbar : ∀ c ∈ "002x\u06630|".toList.getLast?, c.isDigit = false := by simp
  refine ⟨hok, (hagain _ hok).2, hjoin "1" _ "||" hok (by decide) (.inl hbar), ?_⟩
  cases front with
  | nil =>
    have hnumber := Shorthand.Piece.number.inj (List.head_eq_of_cons_eq hsplit)
    rwa [← hnumber, String.ofList_toList] at hexpand
  | cons piece front =>
    obtain ⟨rfl, -⟩ := List.cons.inj hsplit
    exact absurd (by decide) (hsmall _ List.mem_cons_self)

end FlipLoop
