import FlipLoop.Program.Listing
import FlipLoop.Proofs.Expansion
import FlipLoop.Proofs.GlyphText
import FlipLoop.Proofs.MemoryText

/-!
# Reading a listing

A listing is a text in the shorthand. Each of its lines is expanded to its indentation and the glyph
form of its instruction, unless the variable is too large for the shorthand. The first such variable is
what the reading reports; without one the program itself is read back.
-/

namespace FlipLoop

namespace Instr

/-- The shorthand has a number for the variable of the instruction. -/
def Expressible (i : Instr) : Prop :=
  ∀ v, i.operand? = some v → v ≤ Shorthand.maxVariable

instance (i : Instr) : Decidable i.Expressible :=
  inferInstanceAs (Decidable (∀ v ∈ i.operand?, v ≤ Shorthand.maxVariable))

lemma not_expressible_iff {i : Instr} :
    ¬i.Expressible ↔ ∃ v, i.operand? = some v ∧ Shorthand.maxVariable < v := by
  simp [Expressible]

lemma expandChars_numeralText {i : Instr} (h : i.Expressible) :
    Shorthand.expandChars i.numeralText.toList = .ok (Program.glyphText [i]).toList := by
  cases i with
  | flip v =>
    have hv : v ≤ Shorthand.maxVariable := h v rfl
    rw [numeralText, Shorthand.expandChars_repr, if_pos hv]
    simp [Program.glyphText, Program.tokens, tokens, Token.bars]
  | enter v =>
    have hv : v ≤ Shorthand.maxVariable := h v rfl
    rw [numeralText, String.toList_append, Shorthand.expandChars_append_of_not_isDigit (by simp),
      Shorthand.expandChars_repr, if_pos hv]
    simp [Program.glyphText, Program.tokens, tokens, Token.bars, Except.map, Glyph.char]
  | back => decide
  | emit => decide

lemma expandChars_numeralText_of_lt {i : Instr} {v : Nat} (h : i.operand? = some v)
    (hv : Shorthand.maxVariable < v) :
    Shorthand.expandChars i.numeralText.toList = .error (.variableTooLarge v.repr) := by
  have hnot : ¬v ≤ Shorthand.maxVariable := Nat.not_le_of_lt hv
  cases i with
  | flip w =>
    obtain rfl : w = v := Option.some_inj.mp h
    rw [numeralText, Shorthand.expandChars_repr, if_neg hnot]
  | enter w =>
    obtain rfl : w = v := Option.some_inj.mp h
    rw [numeralText, String.toList_append, Shorthand.expandChars_append_of_not_isDigit (by simp),
      Shorthand.expandChars_repr, if_neg hnot]
    rfl
  | back => cases h
  | emit => cases h

end Instr

namespace Line

def blanks (line : Line) : List Char := List.replicate (2 * line.depth) ' '

/-- The line with its line feed. -/
def chars (line : Line) : List Char := line.text.toList ++ ['\n']

/-- The line with the glyph form of its instruction. -/
def glyphChars (line : Line) : List Char :=
  line.blanks ++ (Program.glyphText [line.instr]).toList ++ ['\n']

lemma toList_text (line : Line) : line.text.toList = line.blanks ++ line.instr.numeralText.toList := by
  rw [text, String.toList_append, Memory.toList_pushn]
  rfl

lemma expandChars_chars (line : Line) :
    Shorthand.expandChars line.chars =
      (Shorthand.expandChars line.instr.numeralText.toList).map
        fun x => line.blanks ++ x ++ ['\n'] := by
  have hchars : line.chars = line.blanks ++ (line.instr.numeralText.toList ++ ['\n']) := by
    rw [chars, toList_text, List.append_assoc]
  have hblanks : ∀ c ∈ line.blanks, c.isDigit = false := by
    intro c hc
    rw [List.eq_of_mem_replicate hc]
    rfl
  have hfeed : Shorthand.expandChars ['\n'] = .ok ['\n'] := by decide
  rw [hchars, Shorthand.expandChars_append_of_not_isDigit hblanks,
    Shorthand.expandChars_append (.of_right (by decide)), hfeed]
  cases Shorthand.expandChars line.instr.numeralText.toList with
  | error fault => rfl
  | ok x => exact congrArg Except.ok (List.append_assoc ..).symm

lemma apart_chars (line : Line) (b : List Char) : Shorthand.Apart line.chars b := by
  intro c hc d _
  obtain rfl : '\n' = c := by simpa [chars] using hc
  rfl

theorem expandChars_lines {lines : List Line} (h : ∀ line ∈ lines, line.instr.Expressible)
    (b : List Char) :
    Shorthand.expandChars (lines.flatMap chars ++ b) =
      (Shorthand.expandChars b).map (lines.flatMap glyphChars ++ ·) := by
  induction lines with
  | nil =>
    rw [List.flatMap_nil, List.nil_append]
    cases Shorthand.expandChars b <;> rfl
  | cons line lines ih =>
    obtain ⟨hline, hlines⟩ := List.forall_mem_cons.mp h
    rw [List.flatMap_cons, List.append_assoc, Shorthand.expandChars_append (line.apart_chars _),
      ih hlines, expandChars_chars, Instr.expandChars_numeralText hline]
    cases Shorthand.expandChars b with
    | error fault => rfl
    | ok x => exact congrArg Except.ok (by simp [glyphChars])

lemma ofChars_glyphChars_append (line : Line) (b : List Char) :
    Token.ofChars (line.glyphChars ++ b) = line.instr.tokens ++ Token.ofChars b := by
  have hblanks : ∀ n (a : List Char), Token.ofChars (List.replicate n ' ' ++ a) = Token.ofChars a := by
    intro n a
    induction n with
    | zero => rfl
    | succ n ih =>
      rw [List.replicate_succ, List.cons_append, ← ih]
      exact Token.ofChars_append_cons [] _ (by decide)
  have hinstr : Token.ofChars (Program.glyphText [line.instr]).toList = line.instr.tokens := by
    have htokens := Program.ofText_glyphText [line.instr]
    rwa [Program.tokens_cons, Program.tokens, List.flatMap_nil, List.append_nil] at htokens
  rw [glyphChars, List.append_assoc, List.append_assoc, blanks, hblanks, List.singleton_append,
    Token.ofChars_append_cons _ _ (by decide), hinstr]

lemma ofChars_flatMap_glyphChars (lines : List Line) :
    Token.ofChars (lines.flatMap glyphChars) = Program.tokens (lines.map Line.instr) := by
  induction lines with
  | nil => rfl
  | cons line lines ih =>
    rw [List.flatMap_cons, ofChars_glyphChars_append, ih, List.map_cons, Program.tokens_cons]

end Line

namespace Program

lemma map_instr_linesOnto (depth : Nat) (p : Program) :
    (linesOnto [] depth p).map Line.instr = p := by
  induction p generalizing depth with
  | nil => rfl
  | cons i p ih =>
    cases i <;> simp only [linesOnto] <;> rw [linesOnto_eq, List.map_append, ih] <;> rfl

theorem map_instr_lines (p : Program) : p.lines.map Line.instr = p :=
  map_instr_linesOnto 0 p

lemma toList_listing (p : Program) : p.listing.toList = p.lines.flatMap Line.chars := by
  rw [listing, String.toList_join, List.flatMap_map]
  congr 1
  funext line
  rw [String.toList_append]
  rfl

lemma ofShorthand_listing_of_expressible {p : Program} (hp : p.Balanced)
    (h : ∀ i ∈ p, i.Expressible) : ofShorthand p.listing = .ok p := by
  have hlines : ∀ line ∈ p.lines, line.instr.Expressible := by
    intro line hline
    apply h
    rw [← map_instr_lines p]
    exact List.mem_map_of_mem hline
  have hexpand : Shorthand.expandChars p.listing.toList = .ok (p.lines.flatMap Line.glyphChars) := by
    have hcut := Line.expandChars_lines hlines []
    rw [List.append_nil] at hcut
    rw [toList_listing, hcut]
    exact congrArg Except.ok (List.append_nil _)
  have hread : ofSource (String.ofList (p.lines.flatMap Line.glyphChars)) = .ok p := by
    rw [ofSource, Token.ofText, String.toList_ofList, Line.ofChars_flatMap_glyphChars,
      map_instr_lines, ofTokens_tokens_of_balanced hp]
  rw [ofShorthand, Shorthand.expand, hexpand]
  exact hread

lemma ofShorthand_listing_of_lt {p front behind : Program} {i : Instr} {v : Nat}
    (hsplit : p = front ++ i :: behind) (hfront : ∀ i ∈ front, i.Expressible)
    (hi : i.operand? = some v) (hv : Shorthand.maxVariable < v) :
    ofShorthand p.listing = .error (.variableTooLarge v.repr) := by
  have hinstrs := map_instr_lines p
  rw [hsplit, List.map_eq_append_iff] at hinstrs
  obtain ⟨lines, rest, hlines, rfl, hrest⟩ := hinstrs
  obtain ⟨line, lines', rfl, rfl, -⟩ := List.map_eq_cons_iff.mp hrest
  have hbefore : ∀ line ∈ lines, line.instr.Expressible :=
    fun line hline => hfront _ (List.mem_map_of_mem hline)
  rw [ofShorthand, Shorthand.expand, toList_listing, hsplit, hlines, List.flatMap_append,
    List.flatMap_cons, Line.expandChars_lines hbefore, Shorthand.expandChars_append (line.apart_chars _),
    line.expandChars_chars, Instr.expandChars_numeralText_of_lt hi hv]
  rfl

end Program

/-- A balanced program is read back from its listing if the shorthand has numbers for all of its
variables. If not, the reading reports the first variable that is too large, as a decimal number. -/
theorem ofShorthand_listing {p : Program} (hp : p.Balanced) :
    ((∀ v ∈ p.filterMap Instr.operand?, v ≤ Shorthand.maxVariable) →
        Program.ofShorthand p.listing = .ok p) ∧
      (¬(∀ v ∈ p.filterMap Instr.operand?, v ≤ Shorthand.maxVariable) →
        ∃ front v behind, p.filterMap Instr.operand? = front ++ v :: behind ∧
          (∀ u ∈ front, u ≤ Shorthand.maxVariable) ∧ Shorthand.maxVariable < v ∧
          Program.ofShorthand p.listing = .error (.variableTooLarge v.repr)) := by
  have hall : ∀ q : Program, (∀ v ∈ q.filterMap Instr.operand?, v ≤ Shorthand.maxVariable) ↔
      ∀ i ∈ q, i.Expressible := by
    intro q
    simp only [List.mem_filterMap, Instr.Expressible]
    grind
  constructor
  · intro h
    exact Program.ofShorthand_listing_of_expressible hp ((hall p).mp h)
  · intro h
    rw [hall] at h
    push Not at h
    obtain ⟨j, hj, hnot⟩ := h
    have hsome : (p.find? fun i => decide ¬i.Expressible).isSome = true := by
      rw [List.find?_isSome]
      exact ⟨j, hj, by simpa using hnot⟩
    obtain ⟨i, hi⟩ := Option.isSome_iff_exists.mp hsome
    obtain ⟨hlarge, front, behind, hsplit, hfront⟩ := List.find?_eq_some_iff_append.mp hi
    obtain ⟨v, hv, hlt⟩ := Instr.not_expressible_iff.mp (by simpa using hlarge)
    have hbefore : ∀ i ∈ front, i.Expressible := fun i hi => by simpa using hfront i hi
    refine ⟨front.filterMap Instr.operand?, v, behind.filterMap Instr.operand?, ?_, ?_, hlt, ?_⟩
    · rw [hsplit, List.filterMap_append, List.filterMap_cons_some hv]
    · exact (hall front).mpr hbefore
    · exact Program.ofShorthand_listing_of_lt hsplit hbefore hv hlt

/-- The largest variable that the shorthand can name is read back, and the next larger one is
reported. -/
theorem ofShorthand_listing_at_bound :
    let within : Program := [.enter 1048576, .flip 0, .back, .emit]
    let beyond : Program := [.flip 1048576, .enter 1048577, .flip 4000000, .back]
    (within.Balanced ∧ Program.ofShorthand within.listing = .ok within) ∧
      beyond.Balanced ∧
        Program.ofShorthand beyond.listing = .error (.variableTooLarge "1048577") := by
  intro within beyond
  have hwithin : within.Balanced := by decide
  have hbeyond : beyond.Balanced := by decide
  refine ⟨⟨hwithin, (ofShorthand_listing hwithin).1 (by decide)⟩, hbeyond, ?_⟩
  obtain ⟨front, v, behind, hsplit, hfront, hlt, hread⟩ := (ofShorthand_listing hbeyond).2 (by decide)
  have hoperands : [1048576, 1048577, 4000000] = front ++ v :: behind := hsplit
  match front with
  | [] =>
    obtain ⟨rfl, -⟩ := List.cons.inj hoperands
    exact absurd hlt (by decide)
  | [_] =>
    obtain ⟨-, hrest⟩ := List.cons.inj hoperands
    obtain ⟨rfl, -⟩ := List.cons.inj hrest
    exact hread
  | _ :: u :: _ =>
    obtain ⟨-, hrest⟩ := List.cons.inj hoperands
    obtain ⟨rfl, -⟩ := List.cons.inj hrest
    exact absurd (hfront 1048577 (by simp)) (by decide)

end FlipLoop
