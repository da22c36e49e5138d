import FlipLoop.Proofs.Blocks

/-!
# The glyph form of a program

A balanced program is read back from its glyph form. In the other direction, the glyph form of the
program that a text is read as has the words of the text, one blank apart and each run of bangs cut
down to a single one. Comments, blanks and the lengths of these runs are therefore all that reading
loses.
-/

namespace FlipLoop

namespace Token

@[simp]
lemma toList_text (t : Token) : t.text.toList = t.map Glyph.char :=
  String.toList_ofList

/-- Tokens that stand one blank apart are told apart again. -/
theorem ofText_intercalate {tokens : List Token} (h : ∀ t ∈ tokens, t ≠ []) :
    ofText (" ".intercalate (tokens.map text)) = tokens := by
  induction tokens with
  | nil => simp [ofText]
  | cons t rest ih =>
    obtain ⟨ht, hrest⟩ := List.forall_mem_cons.mp h
    have hfirst : ofChars t.text.toList = [t] := by
      rw [toList_text]
      exact ofChars_map_char ht
    cases rest with
    | nil => simpa [ofText] using hfirst
    | cons u rest =>
      have hblank : (" ".intercalate ((t :: u :: rest).map text)).toList =
          t.text.toList ++ ' ' :: (" ".intercalate ((u :: rest).map text)).toList := by
        rw [List.map_cons, List.map_cons, String.intercalate_cons_cons, String.toList_append,
          String.toList_append, List.append_assoc]
        rfl
      rw [ofText, hblank, ofChars_append_cons _ _ (by decide), hfirst]
      exact congrArg (t :: ·) (ih hrest)

/-- A run of bangs becomes a single bang, and every other word stays as it is. -/
def shortened (word : String) : String :=
  if word ≠ "" ∧ word.toList.all (· = '!') then "!" else word

lemma shortened_bangs (count : Nat) : shortened (bangs count).text = text [.bang] := by
  have hne : (bangs count).text ≠ "" := by
    intro h
    have := congrArg String.toList h
    simp [bangs, List.replicate_succ] at this
  have hall : (bangs count).text.toList.all (· = '!') = true := by
    rw [List.all_eq_true, toList_text, bangs, List.map_replicate]
    intro c hc
    exact decide_eq_true (List.eq_of_mem_replicate hc)
  rw [shortened, if_pos ⟨hne, hall⟩]
  rfl

lemma shortened_of_bang_notMem {t : Token} (h : .bang ∉ t) : shortened t.text = t.text := by
  rw [shortened, if_neg]
  rintro ⟨hne, hall⟩
  cases t with
  | nil => exact hne rfl
  | cons g t =>
    have hg : g.char = Glyph.bang.char := of_decide_eq_true (List.all_eq_true.mp hall g.char (by simp))
    exact h (by simp [Glyph.char_injective hg])

end Token

namespace Program

lemma ne_nil_of_mem_tokens {p : Program} {t : Token} (h : t ∈ p.tokens) : t ≠ [] := by
  obtain ⟨i, -, ht⟩ := List.mem_flatMap.mp h
  rintro rfl
  cases i <;> simp [Instr.tokens, Token.bars] at ht

theorem ofText_glyphText (p : Program) : Token.ofText p.glyphText = p.tokens :=
  Token.ofText_intercalate fun _ => ne_nil_of_mem_tokens

theorem ofSource_glyphText {p : Program} (hp : p.Balanced) : ofSource p.glyphText = .ok p := by
  rw [ofSource, ofText_glyphText]
  exact ofTokens_tokens_of_balanced hp

lemma tokens_injective_of_balanced {p q : Program} (hp : p.Balanced) (hq : q.Balanced)
    (h : p.tokens = q.tokens) : p = q := by
  have hread := ofTokens_tokens_of_balanced hp
  rw [h, ofTokens_tokens_of_balanced hq] at hread
  exact (Except.ok.inj hread).symm

end Program

/-- The program that a derivation means has its words, the runs of bangs cut down. -/
theorem Derivation.map_text_tokens_program (d : Derivation) :
    d.program.tokens.map Token.text = d.words.map Token.shortened := by
  have hbars : ∀ v, Token.shortened (Token.bars v).text = (Token.bars v).text := by
    intro v
    exact Token.shortened_of_bang_notMem (by simp [Token.bars])
  have hslash : Token.shortened (Token.text [.slash]) = Token.text [.slash] :=
    Token.shortened_of_bang_notMem (by simp)
  have hbackslash : Token.shortened (Token.text [.backslash]) = Token.text [.backslash] :=
    Token.shortened_of_bang_notMem (by simp)
  unfold words
  induction d with
  | done => rfl
  | flip v rest ih => simp [program, tokens, Instr.tokens, ih, hbars]
  | emit count rest ih => simp [program, tokens, Instr.tokens, ih, Token.shortened_bangs]
  | loop v body rest ihbody ih =>
    simp [program, tokens, Instr.tokens, ihbody, ih, hbars, hslash, hbackslash]

lemma Program.map_text_tokens_of_ofSource {source : String} {p : Program}
    (h : ofSource source = .ok p) :
    p.tokens.map Token.text = (Token.wordsOf source).map Token.shortened := by
  obtain ⟨d, hd, rfl⟩ := exists_derivation_of_ofTokens h
  rw [d.map_text_tokens_program, Derivation.words_eq_iff.mpr hd.symm]

/-- The glyph form and the reading are inverse. A balanced program is read back from its glyph form, a
text that is read has the glyph form of its words with the runs of bangs cut down, and two texts are
read as the same program exactly if these words are the same. -/
theorem reading_inverts_glyphText :
    (∀ p : Program, p.Balanced → Program.ofSource p.glyphText = .ok p) ∧
      (∀ (source : String) (p : Program), Program.ofSource source = .ok p →
        p.glyphText = " ".intercalate ((Token.wordsOf source).map Token.shortened)) ∧
      ∀ (source source' : String) (p p' : Program), Program.ofSource source = .ok p →
        Program.ofSource source' = .ok p' →
          (p = p' ↔ (Token.wordsOf source).map Token.shortened =
            (Token.wordsOf source').map Token.shortened) := by
  refine ⟨fun p => Program.ofSource_glyphText, ?_, ?_⟩
  · intro source p h
    rw [Program.glyphText, Program.map_text_tokens_of_ofSource h]
  · intro source source' p p' h h'
    rw [← Program.map_text_tokens_of_ofSource h, ← Program.map_text_tokens_of_ofSource h']
    constructor
    · rintro rfl
      rfl
    · intro hwords
      have htokens := List.map_injective_iff.mpr Token.text_injective hwords
      exact Program.tokens_injective_of_balanced (Program.balanced_of_ofTokens h)
        (Program.balanced_of_ofTokens h') htokens

/-- Two spellings of one program, and the glyph form of both. -/
theorem glyphText_of_two_spellings :
    let p : Program := [.enter 1, .emit, .back, .flip 0]
    p.Balanced ∧ Program.ofSource "while/ v||\u2003!x!! do\n\\ |" = .ok p ∧
      Program.ofSource "/\t|| !!!! \\ |" = .ok p ∧
      Program.ofSource p.glyphText = .ok p ∧ p.glyphText = " ".intercalate ["/", "||", "!", "\\", "|"] ∧
      (Token.wordsOf "while/ v||\u2003!x!! do\n\\ |").map Token.shortened =
        (Token.wordsOf "/\t|| !!!! \\ |").map Token.shortened := by
  intro p
  have hp : p.Balanced := by decide
  have hread : Program.ofSource "while/ v||\u2003!x!! do\n\\ |" = .ok p := by decide
  have hread' : Program.ofSource "/\t|| !!!! \\ |" = .ok p := by decide
  obtain ⟨hback, hform, hsame⟩ := reading_inverts_glyphText
  exact ⟨hp, hread, hread', hback p hp, hform _ p hread', (hsame _ _ p p hread hread').mp rfl⟩

end FlipLoop
