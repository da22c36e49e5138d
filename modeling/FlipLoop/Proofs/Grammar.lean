import FlipLoop.Program.Derivation
import FlipLoop.Program.Reading
import Mathlib.Data.List.Basic

/-!
# Reading accepts the grammar

The words of a text are taken from its characters directly, without marks or glyphs. A text is read
as a program exactly if a derivation writes its words; there is one such derivation at most, and the
program is what it means.
-/

namespace FlipLoop

lemma Glyph.char_injective : Function.Injective Glyph.char := by
  intro g h hgh
  have := congrArg Glyph.ofChar? hgh
  simpa using this

namespace Token

/-- The characters that are no comment. -/
def significant (c : Char) : Bool :=
  Text.isBlank c || (Glyph.ofChar? c).isSome

/-- The words of a text: comment characters are deleted, and the rest is split at the blanks. -/
def wordsOf (source : String) : List String :=
  (((source.toList.filter significant).splitOnP Text.isBlank).filter (!·.isEmpty)).map String.ofList

lemma text_injective : Function.Injective Token.text := by
  intro s t h
  exact (List.map_injective_iff.mpr Glyph.char_injective) (String.ofList_injective h)

lemma isBlank_char (g : Glyph) : Text.isBlank g.char = false := by
  cases g <;> decide

lemma splitOnP_marks (text : List Char) :
    ((text.filterMap Mark.ofChar?).splitOnP Mark.isGap).map
        (fun marks => (marks.filterMap Mark.glyph?).map Glyph.char) =
      (text.filter significant).splitOnP Text.isBlank := by
  induction text with
  | nil => simp
  | cons c text ih =>
    cases hg : Glyph.ofChar? c with
    | some g =>
      obtain rfl := Glyph.ofChar?_eq_some_iff.mp hg
      have hs : significant g.char = true := by simp [significant]
      rw [List.filter_cons_of_pos hs, List.filterMap_cons_some (Mark.ofChar?_char g),
        List.splitOnP_cons_eq_if_modifyHead, List.splitOnP_cons_eq_if_modifyHead, ← ih,
        isBlank_char]
      cases (text.filterMap Mark.ofChar?).splitOnP Mark.isGap <;> simp [Mark.isGap, Mark.glyph?]
    | none =>
      cases hb : Text.isBlank c with
      | true =>
        have hs : significant c = true := by simp [significant, hb]
        rw [List.filter_cons_of_pos hs, List.filterMap_cons_some (Mark.ofChar?_of_isBlank hb),
          List.splitOnP_cons_eq_if_modifyHead, List.splitOnP_cons_eq_if_modifyHead, ← ih, hb]
        simp [Mark.isGap]
      | false =>
        have hs : ¬significant c = true := by simp [significant, hb, hg]
        have hm : Mark.ofChar? c = none := by simp [Mark.ofChar?, hb, hg]
        rw [List.filter_cons_of_neg hs, List.filterMap_cons_none hm, ih]

/-- The tokens of a text are its words. -/
theorem map_text_ofText (source : String) : (ofText source).map text = wordsOf source := by
  unfold ofText ofChars wordsOf
  rw [← splitOnP_marks, List.filter_map, List.filter_map, List.map_map, List.map_map]
  have hempty : ((fun word : List Char => !word.isEmpty) ∘ fun marks : List Mark =>
      (marks.filterMap Mark.glyph?).map Glyph.char) =
      (fun t : Token => !t.isEmpty) ∘ fun marks => marks.filterMap Mark.glyph? := by
    funext marks
    simp
  rw [hempty]
  rfl

lemma word_eq_slash_iff {t : Token} : t.word = .slash ↔ t = [.slash] := by
  refine ⟨fun h => ?_, fun h => h ▸ rfl⟩
  unfold word at h
  split at h
  · split at h <;> cases h
  · rfl
  · cases h
  · split at h <;> cases h
  · cases h

lemma word_eq_backslash_iff {t : Token} : t.word = .backslash ↔ t = [.backslash] := by
  refine ⟨fun h => ?_, fun h => h ▸ rfl⟩
  unfold word at h
  split at h
  · split at h <;> cases h
  · cases h
  · rfl
  · split at h <;> cases h
  · cases h

lemma word_eq_bangs_iff {t : Token} : t.word = .bangs ↔ ∃ count, t = bangs count := by
  constructor
  · intro h
    unfold word at h
    split at h
    · split at h <;> cases h
    · cases h
    · cases h
    · split at h
      · next more hm =>
        rw [all_beq_iff_eq_replicate] at hm
        refine ⟨more.length, ?_⟩
        rw [bangs, List.replicate_succ, ← hm]
      · cases h
    · cases h
  · rintro ⟨count, rfl⟩
    exact word_bangs count

end Token

namespace Program

section Commands

variable (done : List Instr) (position depth : Nat) (rest : List Token)

@[simp]
lemma readOnto_bars (v : Nat) : readOnto done position depth (.bars v :: rest) =
    readOnto (.flip v :: done) (position + 1) depth rest := by
  conv_lhs => unfold readOnto
  simp only [Token.word_bars]

@[simp]
lemma readOnto_bangs (count : Nat) : readOnto done position depth (.bangs count :: rest) =
    readOnto (.emit :: done) (position + 1) depth rest := by
  conv_lhs => unfold readOnto
  simp only [Token.word_bangs]

@[simp]
lemma readOnto_slash (v : Nat) : readOnto done position depth ([.slash] :: .bars v :: rest) =
    readOnto (.enter v :: done) (position + 2) (depth + 1) rest := by
  conv_lhs => unfold readOnto
  have hslash : Token.word [.slash] = .slash := rfl
  simp only [hslash, Token.word_bars]

@[simp]
lemma readOnto_backslash : readOnto done position (depth + 1) ([.backslash] :: rest) =
    readOnto (.back :: done) (position + 1) depth rest := by
  conv_lhs => unfold readOnto
  have hbackslash : Token.word [.backslash] = .backslash := rfl
  simp only [hbackslash]

end Commands

/-- The tokens that bring `depth` open loops to their ends: a derivation in front of each of the
backslashes, and one behind the last. -/
def Unwinds : Nat → List Token → Prop
  | 0, tokens => ∃ d : Derivation, tokens = d.tokens
  | depth + 1, tokens =>
    ∃ d : Derivation, ∃ rest, tokens = d.tokens ++ [.backslash] :: rest ∧ Unwinds depth rest

/-- A command in front of the tokens belongs to their first derivation. -/
lemma Unwinds.prepend {depth : Nat} {tokens : List Token} (h : Unwinds depth tokens)
    (command : List Token) (extend : Derivation → Derivation)
    (hd : ∀ d, (extend d).tokens = command ++ d.tokens) : Unwinds depth (command ++ tokens) := by
  cases depth with
  | zero =>
    obtain ⟨d, rfl⟩ := h
    exact ⟨extend d, (hd d).symm⟩
  | succ depth =>
    obtain ⟨d, rest, rfl, hrest⟩ := h
    refine ⟨extend d, rest, ?_, hrest⟩
    rw [hd, List.append_assoc]

/-- What the reading accepts while `depth` loops are open brings them to their ends. -/
theorem unwinds_of_readOnto {done : List Instr} {position depth : Nat} {tokens : List Token}
    {p : Program} (h : readOnto done position depth tokens = .ok p) : Unwinds depth tokens := by
  fun_induction readOnto done position depth tokens with
  | case1 => exact ⟨.done, rfl⟩
  | case2 => cases h
  | case3 done position depth token rest v hv ih =>
    obtain rfl := Token.word_eq_bars_iff.mp hv
    exact (ih h).prepend [.bars v] (.flip v) (fun _ => rfl)
  | case4 => cases h
  | case5 done position depth token ht operand rest v hv ih =>
    obtain rfl := Token.word_eq_slash_iff.mp ht
    obtain rfl := Token.word_eq_bars_iff.mp hv
    obtain ⟨body, rest, rfl, hrest⟩ := ih h
    have hloop := hrest.prepend ([.slash] :: .bars v :: (body.tokens ++ [[.backslash]])) (.loop v body)
      (fun d => by simp [Derivation.tokens])
    simpa using hloop
  | case6 => cases h
  | case7 => cases h
  | case8 done position token rest ht depth ih =>
    obtain rfl := Token.word_eq_backslash_iff.mp ht
    exact ⟨.done, rest, rfl, ih h⟩
  | case9 done position depth token rest ht ih =>
    obtain ⟨count, rfl⟩ := Token.word_eq_bangs_iff.mp ht
    exact (ih h).prepend [.bangs count] (.emit count) (fun _ => rfl)
  | case10 => cases h

/-- A derivation is read through, whatever was read before it and comes behind it. -/
theorem readOnto_tokens_append (d : Derivation) (done : List Instr) (position depth : Nat)
    (rest : List Token) :
    readOnto done position depth (d.tokens ++ rest) =
      readOnto (d.program.reverse ++ done) (position + d.tokens.length) depth rest := by
  induction d generalizing done position depth rest with
  | done => rfl
  | flip v d ih =>
    simp only [Derivation.tokens, Derivation.program, List.cons_append, readOnto_bars, ih,
      List.reverse_cons, List.append_assoc, List.nil_append, List.length_cons]
    rw [show position + 1 + d.tokens.length = position + (d.tokens.length + 1) by omega]
  | emit count d ih =>
    simp only [Derivation.tokens, Derivation.program, List.cons_append, readOnto_bangs, ih,
      List.reverse_cons, List.append_assoc, List.nil_append, List.length_cons]
    rw [show position + 1 + d.tokens.length = position + (d.tokens.length + 1) by omega]
  | loop v body d ihbody ih =>
    simp only [Derivation.tokens, Derivation.program, List.cons_append, List.append_assoc,
      readOnto_slash, ihbody, readOnto_backslash, ih, List.reverse_cons, List.reverse_append,
      List.nil_append, List.length_cons, List.length_append]
    congr 1
    omega

theorem ofTokens_tokens (d : Derivation) : ofTokens d.tokens = .ok d.program := by
  have h := readOnto_tokens_append d [] 0 0 []
  simpa [ofTokens, readOnto] using h

theorem exists_derivation_of_ofTokens {tokens : List Token} {p : Program}
    (h : ofTokens tokens = .ok p) : ∃ d : Derivation, tokens = d.tokens ∧ p = d.program := by
  obtain ⟨d, rfl⟩ := unwinds_of_readOnto h
  rw [ofTokens_tokens] at h
  exact ⟨d, rfl, (Except.ok.inj h).symm⟩

end Program

namespace Derivation

/-- What can follow a derivation: nothing, or the backslash of the loop around it. -/
def Stops (rest : List Token) : Prop :=
  rest = [] ∨ ∃ more, rest = [.backslash] :: more

def firstWord (tokens : List Token) : Option Word :=
  tokens.head?.map Token.word

/-- The first token tells the first command of a derivation, if it has one. -/
lemma firstWord_tokens_append (d : Derivation) {rest : List Token} (hs : Stops rest) :
    match d with
    | done => firstWord (d.tokens ++ rest) = none ∨ firstWord (d.tokens ++ rest) = some .backslash
    | flip v _ => firstWord (d.tokens ++ rest) = some (.bars v)
    | emit _ _ => firstWord (d.tokens ++ rest) = some .bangs
    | loop _ _ _ => firstWord (d.tokens ++ rest) = some .slash := by
  cases d with
  | done =>
    obtain rfl | ⟨more, rfl⟩ := hs
    · exact .inl rfl
    · exact .inr rfl
  | flip v d => simp [firstWord, tokens]
  | emit count d => simp [firstWord, tokens]
  | loop v body d => rfl

/-- No token list has two derivations, also if it goes on behind the first. -/
theorem tokens_append_inj {d d' : Derivation} {rest rest' : List Token} (hs : Stops rest)
    (hs' : Stops rest') (h : d.tokens ++ rest = d'.tokens ++ rest') : d = d' ∧ rest = rest' := by
  induction d generalizing d' rest rest' with
  | done =>
    have hfirst := firstWord_tokens_append done hs
    rw [h] at hfirst
    have hfirst' := firstWord_tokens_append d' hs'
    cases d' with
    | done => exact ⟨rfl, h⟩
    | _ => simp [hfirst'] at hfirst
  | flip v d ih =>
    have hfirst := firstWord_tokens_append (flip v d) hs
    rw [h] at hfirst
    have hfirst' := firstWord_tokens_append d' hs'
    cases d' with
    | flip v' d' =>
      obtain rfl : v' = v := by simpa [hfirst'] using hfirst
      obtain ⟨rfl, rfl⟩ := ih hs hs' (List.tail_eq_of_cons_eq h)
      exact ⟨rfl, rfl⟩
    | _ => simp [hfirst] at hfirst'
  | emit count d ih =>
    have hfirst := firstWord_tokens_append (emit count d) hs
    rw [h] at hfirst
    have hfirst' := firstWord_tokens_append d' hs'
    cases d' with
    | emit count' d' =>
      have hlen := congrArg List.length (List.head_eq_of_cons_eq h)
      obtain rfl : count = count' := by simpa [Token.bangs] using hlen
      obtain ⟨rfl, rfl⟩ := ih hs hs' (List.tail_eq_of_cons_eq h)
      exact ⟨rfl, rfl⟩
    | _ => simp [hfirst] at hfirst'
  | loop v body d ihbody ih =>
    have hfirst := firstWord_tokens_append (loop v body d) hs
    rw [h] at hfirst
    have hfirst' := firstWord_tokens_append d' hs'
    cases d' with
    | loop v' body' d' =>
      simp only [tokens, List.cons_append, List.append_assoc] at h
      have hbars := List.tail_eq_of_cons_eq h
      have hv := congrArg Token.word (List.head_eq_of_cons_eq hbars)
      simp only [Token.word_bars, Word.bars.injEq] at hv
      obtain ⟨rfl, hback⟩ := ihbody (.inr ⟨_, rfl⟩) (.inr ⟨_, rfl⟩) (List.tail_eq_of_cons_eq hbars)
      obtain ⟨rfl, rfl⟩ := ih hs hs' (List.tail_eq_of_cons_eq hback)
      exact ⟨by rw [hv], rfl⟩
    | _ => simp [hfirst] at hfirst'

theorem tokens_injective : Function.Injective tokens := by
  intro d d' h
  have hnil : d.tokens ++ [] = d'.tokens ++ [] := congrArg (· ++ []) h
  exact (tokens_append_inj (.inl rfl) (.inl rfl) hnil).1

def words (d : Derivation) : List String := d.tokens.map Token.text

lemma words_eq_iff {d : Derivation} {source : String} :
    d.words = Token.wordsOf source ↔ d.tokens = Token.ofText source := by
  rw [words, ← Token.map_text_ofText]
  exact (List.map_injective_iff.mpr Token.text_injective).eq_iff

end Derivation

/-- Reading accepts exactly the texts whose words have a derivation. The derivation is the only one,
and the program is its flattening. -/
theorem ofSource_eq_ok_iff_exists_derivation (source : String) :
    ((∃ p, Program.ofSource source = .ok p) ↔ ∃ d : Derivation, d.words = Token.wordsOf source) ∧
      ∀ d : Derivation, d.words = Token.wordsOf source →
        Program.ofSource source = .ok d.program ∧
          ∀ d' : Derivation, d'.words = Token.wordsOf source → d' = d := by
  simp only [Derivation.words_eq_iff]
  have hread : ∀ d : Derivation, d.tokens = Token.ofText source →
      Program.ofSource source = .ok d.program := by
    intro d hd
    rw [Program.ofSource, ← hd, Program.ofTokens_tokens]
  refine ⟨⟨?_, ?_⟩, ?_⟩
  · rintro ⟨p, hp⟩
    obtain ⟨d, hd, -⟩ := Program.exists_derivation_of_ofTokens hp
    exact ⟨d, hd.symm⟩
  · rintro ⟨d, hd⟩
    exact ⟨_, hread d hd⟩
  · intro d hd
    exact ⟨hread d hd, fun d' hd' => Derivation.tokens_injective (hd'.trans hd.symm)⟩

/-- Comments inside words, a wide blank and a long run of bangs. -/
theorem ofSource_commented_loop :
    (Derivation.loop 1 (.emit 2 .done) (.flip 0 .done)).words =
        Token.wordsOf "do/ v||\u2003!x!!\n\\ |" ∧
      Program.ofSource "do/ v||\u2003!x!!\n\\ |" = .ok [.enter 1, .emit, .back, .flip 0] := by
  have hwords : (Derivation.loop 1 (.emit 2 .done) (.flip 0 .done)).words =
      Token.wordsOf "do/ v||\u2003!x!!\n\\ |" := by decide
  exact ⟨hwords, ((ofSource_eq_ok_iff_exists_derivation _).2 _ hwords).1⟩

end FlipLoop
