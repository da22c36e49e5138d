import FlipLoop.Proofs.GlyphText

/-!
# Where the reading of a text fails

A text that cannot be read begins with whole commands, and what comes behind them is refused at once.
The commands can be completed to a program by closing the loops that they leave open, and a word that is
refused is refused whatever stands behind it. So the position that is reported is the first one at which
no text can be read any more.
-/

namespace FlipLoop

namespace Token

/-- The text with these words behind it, each behind a blank. -/
def followedBy (source : String) (words : List String) : String :=
  source ++ String.join (words.map (" " ++ ·))

lemma ofChars_append_flatMap (a : List Char) {tokens : List Token} (h : ∀ t ∈ tokens, t ≠ []) :
    ofChars (a ++ tokens.flatMap fun t => ' ' :: t.map Glyph.char) = ofChars a ++ tokens := by
  induction tokens generalizing a with
  | nil => simp
  | cons t tokens ih =>
    obtain ⟨ht, htokens⟩ := List.forall_mem_cons.mp h
    have hsplit : a ++ (t :: tokens).flatMap (fun t => ' ' :: t.map Glyph.char) =
        (a ++ ' ' :: t.map Glyph.char) ++ tokens.flatMap fun t => ' ' :: t.map Glyph.char := by
      rw [List.flatMap_cons, List.append_assoc]
    rw [hsplit, ih _ htokens, ofChars_append_cons _ _ (by decide), ofChars_map_char ht,
      List.append_assoc, List.singleton_append]

theorem ofText_followedBy (source : String) {tokens : List Token} (h : ∀ t ∈ tokens, t ≠ []) :
    ofText (followedBy source (tokens.map text)) = ofText source ++ tokens := by
  have hchars : (followedBy source (tokens.map text)).toList =
      source.toList ++ tokens.flatMap fun t => ' ' :: t.map Glyph.char := by
    rw [followedBy, String.toList_append, String.toList_join, List.flatMap_map, List.flatMap_map]
    congr 2
    funext t
    rw [String.toList_append, toList_text]
    rfl
  rw [ofText, hchars, ofChars_append_flatMap _ h, ofText]

end Token

namespace Program

/-- The tokens are whole commands, and where `depth` loops are open in front of them, this many are
open behind them. -/
inductive Opens : Nat → List Token → Nat → Prop
  | nil (depth : Nat) : Opens depth [] depth
  | bars {depth depth' : Nat} {rest : List Token} (v : Nat) :
    Opens depth rest depth' → Opens depth (.bars v :: rest) depth'
  | bangs {depth depth' : Nat} {rest : List Token} (count : Nat) :
    Opens depth rest depth' → Opens depth (.bangs count :: rest) depth'
  | slash {depth depth' : Nat} {rest : List Token} (v : Nat) :
    Opens (depth + 1) rest depth' → Opens depth ([.slash] :: .bars v :: rest) depth'
  | backslash {depth depth' : Nat} {rest : List Token} :
    Opens depth rest depth' → Opens (depth + 1) ([.backslash] :: rest) depth'

/-- Where a command is to begin, at `position` and with this many loops open, the tokens do not begin
with one that can be read. -/
inductive Refuses (position : Nat) : Nat → List Token → SourceError → Prop
  | unknown {token : Token} (depth : Nat) (rest : List Token) (word : token.word = .unknown) :
    Refuses position depth (token :: rest) (.unknownCommand token position)
  | backslash (rest : List Token) :
    Refuses position 0 ([.backslash] :: rest) (.endWithoutLoop position)
  | operand {operand : Token} (depth : Nat) (rest : List Token) (word : ∀ v, operand.word ≠ .bars v) :
    Refuses position depth ([.slash] :: operand :: rest) (.loopWithoutVariable (position + 1))
  | noOperand (depth : Nat) :
    Refuses position depth [[.slash]] (.loopWithoutVariable (position + 1))
  | unclosed (depth : Nat) : Refuses position (depth + 1) [] (.unclosedLoops (depth + 1))

/-- The tokens are read, and the reading goes on behind them in the same way whatever stands there. -/
def Passes (done : List Instr) (position depth : Nat) (front : List Token) (done' : List Instr)
    (depth' : Nat) : Prop :=
  ∀ rest, readOnto done position depth (front ++ rest) =
    readOnto done' (position + front.length) depth' rest

lemma Passes.append {done done' done'' : List Instr} {position depth k depth' : Nat}
    {front front' : List Token} (h : Passes done position depth front done' k)
    (h' : Passes done' (position + front.length) k front' done'' depth') :
    Passes done position depth (front ++ front') done'' depth' := by
  intro rest
  rw [List.append_assoc, h, h', List.length_append, Nat.add_assoc]

namespace Opens

variable {depth k depth' : Nat} {front front' : List Token}

lemma append (h : Opens depth front k) (h' : Opens k front' depth') :
    Opens depth (front ++ front') depth' := by
  induction h with
  | nil => exact h'
  | bars v _ ih => exact .bars v (ih h')
  | bangs count _ ih => exact .bangs count (ih h')
  | slash v _ ih => exact .slash v (ih h')
  | backslash _ ih => exact .backslash (ih h')

lemma ne_nil (h : Opens depth front depth') : ∀ t ∈ front, t ≠ [] := by
  induction h with
  | nil => simp
  | bars v _ ih => simpa [Token.bars] using ih
  | bangs count _ ih => simpa [Token.bangs] using ih
  | slash v _ ih => simpa [Token.bars] using ih
  | backslash _ ih => simpa using ih

lemma closers (count depth : Nat) :
    Opens (depth + count) (List.replicate count [.backslash]) depth := by
  induction count with
  | zero => exact .nil depth
  | succ count ih => exact .backslash ih

/-- Whole commands are read, whatever stands behind them. -/
theorem readOnto (h : Opens depth front depth') (done : List Instr) (position : Nat) :
    ∃ done', Passes done position depth front done' depth' := by
  induction h generalizing done position with
  | nil => exact ⟨done, fun rest => rfl⟩
  | @bars depth _ _ v _ ih =>
    have hcommand : Passes done position depth [.bars v] (.flip v :: done) depth :=
      fun rest => readOnto_bars done position depth rest v
    obtain ⟨done', hrest⟩ := ih (.flip v :: done) (position + 1)
    exact ⟨done', hcommand.append hrest⟩
  | @bangs depth _ _ count _ ih =>
    have hcommand : Passes done position depth [.bangs count] (.emit :: done) depth :=
      fun rest => readOnto_bangs done position depth rest count
    obtain ⟨done', hrest⟩ := ih (.emit :: done) (position + 1)
    exact ⟨done', hcommand.append hrest⟩
  | @slash depth _ _ v _ ih =>
    have hcommand : Passes done position depth [[.slash], .bars v] (.enter v :: done) (depth + 1) :=
      fun rest => readOnto_slash done position depth rest v
    obtain ⟨done', hrest⟩ := ih (.enter v :: done) (position + 2)
    exact ⟨done', hcommand.append hrest⟩
  | @backslash depth _ _ _ ih =>
    have hcommand : Passes done position (depth + 1) [[.backslash]] (.back :: done) depth :=
      readOnto_backslash done position depth
    obtain ⟨done', hrest⟩ := ih (.back :: done) (position + 1)
    exact ⟨done', hcommand.append hrest⟩

end Opens

lemma Refuses.readOnto_eq {position depth : Nat} {tokens : List Token} {error : SourceError}
    (h : Refuses position depth tokens error) (done : List Instr) :
    readOnto done position depth tokens = .error error := by
  have hslash : Token.word [.slash] = .slash := rfl
  have hbackslash : Token.word [.backslash] = .backslash := rfl
  cases h with
  | unknown depth rest word =>
    unfold readOnto
    rw [word]
  | backslash rest =>
    unfold readOnto
    rw [hbackslash]
  | operand depth rest word =>
    unfold readOnto
    rw [hslash]
    dsimp only
    split
    · next v hv => exact absurd hv (word v)
    · rfl
  | noOperand depth => rfl
  | unclosed depth => rfl

/-- The tokens, the first of which is at `position`, begin with whole commands, and what comes behind
these is refused. -/
def Stops (position depth : Nat) (tokens : List Token) (error : SourceError) : Prop :=
  ∃ front behind depth', tokens = front ++ behind ∧ Opens depth front depth' ∧
    Refuses (position + front.length) depth' behind error

lemma Opens.stops {position depth k : Nat} {command rest : List Token} {error : SourceError}
    (hc : Opens depth command k) (h : Stops (position + command.length) k rest error) :
    Stops position depth (command ++ rest) error := by
  obtain ⟨front, behind, depth', rfl, hfront, hbehind⟩ := h
  refine ⟨command ++ front, behind, depth', (List.append_assoc ..).symm, hc.append hfront, ?_⟩
  rwa [List.length_append, ← Nat.add_assoc]

theorem stops_of_readOnto {done : List Instr} {position depth : Nat} {tokens : List Token}
    {error : SourceError} (h : readOnto done position depth tokens = .error error) :
    Stops position depth tokens error := by
  fun_induction readOnto done position depth tokens with
  | case1 => cases h
  | case2 done position depth hdepth =>
    obtain ⟨depth, rfl⟩ := Nat.exists_eq_succ_of_ne_zero hdepth
    cases h
    exact ⟨[], [], _, rfl, .nil _, .unclosed depth⟩
  | case3 done position depth token rest v hv ih =>
    obtain rfl := Token.word_eq_bars_iff.mp hv
    have hcommand : Opens depth [.bars v] depth := .bars v (.nil depth)
    exact hcommand.stops (ih h)
  | case4 done position depth token ht =>
    obtain rfl := Token.word_eq_slash_iff.mp ht
    cases h
    exact ⟨[], _, depth, rfl, .nil depth, .noOperand depth⟩
  | case5 done position depth token ht operand rest v hv ih =>
    obtain rfl := Token.word_eq_slash_iff.mp ht
    obtain rfl := Token.word_eq_bars_iff.mp hv
    have hcommand : Opens depth [[.slash], .bars v] (depth + 1) := .slash v (.nil (depth + 1))
    exact hcommand.stops (ih h)
  | case6 done position depth token ht operand rest hnot =>
    obtain rfl := Token.word_eq_slash_iff.mp ht
    cases h
    exact ⟨[], _, depth, rfl, .nil depth, .operand depth rest hnot⟩
  | case7 done position token rest ht =>
    obtain rfl := Token.word_eq_backslash_iff.mp ht
    cases h
    exact ⟨[], _, 0, rfl, .nil 0, .backslash rest⟩
  | case8 done position token rest ht depth ih =>
    obtain rfl := Token.word_eq_backslash_iff.mp ht
    have hcommand : Opens (depth + 1) [[.backslash]] depth := .backslash (.nil depth)
    exact hcommand.stops (ih h)
  | case9 done position depth token rest ht ih =>
    obtain ⟨count, rfl⟩ := Token.word_eq_bangs_iff.mp ht
    have hcommand : Opens depth [.bangs count] depth := .bangs count (.nil depth)
    exact hcommand.stops (ih h)
  | case10 done position depth token rest ht =>
    cases h
    exact ⟨[], _, depth, rfl, .nil depth, .unknown depth rest ht⟩

end Program

/-- Some text that begins with these words is read as a program. -/
def Viable (words : List String) : Prop :=
  ∃ source p, words <+: Token.wordsOf source ∧ Program.ofSource source = .ok p

/-- Whatever else stands behind these words, the text cannot be read, for this reason. -/
def Dooms (words : List String) (error : SourceError) : Prop :=
  ∀ source, words <+: Token.wordsOf source → Program.ofSource source = .error error

/-- The words in front of number `i` can be completed to a program, and with word `i` they cannot. -/
structure HopelessAt (source : String) (error : SourceError) (i : Nat) : Prop where
  lt_length : i < (Token.wordsOf source).length
  viable : Viable ((Token.wordsOf source).take i)
  dooms : Dooms ((Token.wordsOf source).take (i + 1)) error

namespace Program

variable {front core behind : List Token} {depth : Nat} {source : String} {error : SourceError}

lemma exists_refuses_of_ofSource (h : ofSource source = .error error) :
    ∃ front behind depth, Token.ofText source = front ++ behind ∧ Opens 0 front depth ∧
      Refuses front.length depth behind error := by
  obtain ⟨front, behind, depth, htokens, hopens, hrefuses⟩ := stops_of_readOnto h
  rw [Nat.zero_add] at hrefuses
  exact ⟨front, behind, depth, htokens, hopens, hrefuses⟩

lemma ofSource_eq_error_of_refuses (htokens : Token.ofText source = front ++ behind)
    (hopens : Opens 0 front depth) (hrefuses : Refuses front.length depth behind error) :
    ofSource source = .error error := by
  obtain ⟨done, hread⟩ := hopens.readOnto [] 0
  rw [ofSource, ofTokens, htokens, hread, Nat.zero_add]
  exact hrefuses.readOnto_eq done

lemma exists_ofSource_of_opens (h : Opens 0 (Token.ofText source) 0) : ∃ p, ofSource source = .ok p := by
  obtain ⟨done, hread⟩ := h.readOnto [] 0
  refine ⟨done.reverse, ?_⟩
  rw [ofSource, ofTokens, ← List.append_nil (Token.ofText source), hread]
  rfl

/-- Whole commands are completed by closing their loops. -/
lemma viable_of_opens (h : Opens 0 front depth) : Viable (front.map Token.text) := by
  have hclosed : Opens 0 (front ++ List.replicate depth [.backslash]) 0 :=
    h.append (by simpa using Opens.closers depth 0)
  have htokens := Token.ofText_followedBy "" hclosed.ne_nil
  have hempty : Token.ofText "" = [] := Token.ofChars_nil
  rw [hempty, List.nil_append] at htokens
  obtain ⟨p, hp⟩ := exists_ofSource_of_opens (htokens ▸ hclosed)
  refine ⟨_, p, ?_, hp⟩
  rw [← Token.map_text_ofText, htokens, List.map_append]
  exact List.prefix_append _ _

/-- What is refused whatever stands behind it is refused in every text. -/
lemma dooms_of_refuses (hopens : Opens 0 front depth)
    (hrefuses : ∀ rest, Refuses front.length depth (core ++ rest) error) :
    Dooms ((front ++ core).map Token.text) error := by
  intro source hwords
  rw [← Token.map_text_ofText, List.prefix_map_iff_of_injective Token.text_injective] at hwords
  obtain ⟨rest, hrest⟩ := hwords
  rw [List.append_assoc] at hrest
  exact ofSource_eq_error_of_refuses hrest.symm hopens (hrefuses rest)

lemma take_wordsOf (htokens : Token.ofText source = front ++ behind) :
    (Token.wordsOf source).take front.length = front.map Token.text := by
  rw [← Token.map_text_ofText, htokens, ← List.map_take, List.take_left]

/-- A token that is refused whatever stands behind it. -/
lemma hopelessAt_of_refuses {token : Token} (htokens : Token.ofText source = front ++ token :: behind)
    (hopens : Opens 0 front depth)
    (hrefuses : ∀ rest, Refuses front.length depth (token :: rest) error) :
    HopelessAt source error front.length := by
  have hlonger : Token.ofText source = (front ++ [token]) ++ behind := by
    rw [htokens, List.append_assoc, List.singleton_append]
  have htake := take_wordsOf hlonger
  rw [List.length_append, List.length_singleton] at htake
  constructor
  · rw [← Token.map_text_ofText, htokens, List.length_map, List.length_append, List.length_cons]
    omega
  · rw [take_wordsOf htokens]
    exact viable_of_opens hopens
  · rw [htake]
    exact dooms_of_refuses hopens hrefuses

/-- A slash in front of which whole commands stand can be completed, with a variable and a body. -/
lemma viable_of_slash (htokens : Token.ofText source = front ++ [.slash] :: behind)
    (hopens : Opens 0 front depth) : Viable ((Token.wordsOf source).take (front.length + 1)) := by
  have hlonger : Token.ofText source = (front ++ [[.slash]]) ++ behind := by
    rw [htokens, List.append_assoc, List.singleton_append]
  have htake := take_wordsOf hlonger
  rw [List.length_append, List.length_singleton] at htake
  rw [htake]
  obtain ⟨longer, p, hwords, hp⟩ := viable_of_opens (hopens.append (.slash 0 (.nil _)))
  refine ⟨longer, p, List.IsPrefix.trans ?_ hwords, hp⟩
  rw [List.map_append, List.map_append]
  apply (List.prefix_append_right_inj _).mpr
  exact List.prefix_append [Token.text [.slash]] [Token.text (.bars 0)]

section Closing

/-- The word that closes a loop, `count` times. -/
def backslashes (count : Nat) : List String := List.replicate count "\\"

lemma map_text_closers (count : Nat) :
    (List.replicate count [Glyph.backslash]).map Token.text = backslashes count :=
  List.map_replicate

lemma ofText_followedBy_backslashes (source : String) (count : Nat) :
    Token.ofText (Token.followedBy source (backslashes count)) =
      Token.ofText source ++ List.replicate count [.backslash] := by
  rw [← map_text_closers]
  exact Token.ofText_followedBy source (Opens.closers count 0).ne_nil

/-- A slash at the end of the text is completed by any variable, and by closing all loops. -/
lemma exists_ofSource_followedBy_bars (htokens : Token.ofText source = front ++ [[.slash]])
    (hopens : Opens 0 front depth) (v : Nat) :
    ∃ p, ofSource (Token.followedBy source ((Token.bars v).text :: backslashes (depth + 1))) =
      .ok p := by
  have hclosers : Opens (depth + 1) (List.replicate (depth + 1) [.backslash]) 0 := by
    simpa using Opens.closers (depth + 1) 0
  have hloop : Opens depth ([.slash] :: .bars v :: List.replicate (depth + 1) [.backslash]) 0 :=
    .slash v hclosers
  have hmore : ∀ t ∈ Token.bars v :: List.replicate (depth + 1) [Glyph.backslash], t ≠ [] :=
    (List.forall_mem_cons.mp hloop.ne_nil).2
  rw [← map_text_closers, ← List.map_cons]
  apply exists_ofSource_of_opens
  rw [Token.ofText_followedBy source hmore, htokens, List.append_assoc]
  exact hopens.append hloop

variable {count : Nat} (hopens : Opens 0 (Token.ofText source) depth)

include hopens

lemma opens_followedBy_backslashes (h : count ≤ depth) :
    Opens 0 (Token.ofText (Token.followedBy source (backslashes count))) (depth - count) := by
  rw [ofText_followedBy_backslashes]
  have hclosers := Opens.closers count (depth - count)
  rw [Nat.sub_add_cancel h] at hclosers
  exact hopens.append hclosers

lemma exists_ofSource_followedBy_backslashes :
    ∃ p, ofSource (Token.followedBy source (backslashes depth)) = .ok p := by
  have hclosed := opens_followedBy_backslashes hopens (Nat.le_refl depth)
  rw [Nat.sub_self] at hclosed
  exact exists_ofSource_of_opens hclosed

lemma ofSource_followedBy_few_backslashes (h : count < depth) :
    ofSource (Token.followedBy source (backslashes count)) = .error (.unclosedLoops (depth - count)) := by
  have hopen := opens_followedBy_backslashes hopens (Nat.le_of_lt h)
  obtain ⟨left, hleft⟩ := Nat.exists_eq_succ_of_ne_zero (Nat.sub_ne_zero_of_lt h)
  rw [hleft] at hopen ⊢
  exact ofSource_eq_error_of_refuses (List.append_nil _).symm hopen (.unclosed left)

lemma ofSource_followedBy_many_backslashes (h : depth < count) :
    ofSource (Token.followedBy source (backslashes count)) =
      .error (.endWithoutLoop ((Token.wordsOf source).length + depth)) := by
  have hclosed := opens_followedBy_backslashes hopens (Nat.le_refl depth)
  rw [Nat.sub_self, ofText_followedBy_backslashes] at hclosed
  obtain ⟨more, rfl⟩ := Nat.exists_eq_add_of_lt h
  have htokens : Token.ofText (Token.followedBy source (backslashes (depth + more + 1))) =
      (Token.ofText source ++ List.replicate depth [.backslash]) ++
        [.backslash] :: List.replicate more [.backslash] := by
    rw [ofText_followedBy_backslashes, List.append_assoc, ← List.replicate_succ,
      List.replicate_append_replicate, Nat.add_assoc]
  have hlength : (Token.wordsOf source).length + depth =
      (Token.ofText source ++ List.replicate depth [Glyph.backslash]).length := by
    rw [← Token.map_text_ofText, List.length_map, List.length_append, List.length_replicate]
  rw [hlength]
  apply ofSource_eq_error_of_refuses htokens hclosed
  exact .backslash (List.replicate more [.backslash])

end Closing

end Program

/-- The reading of a text fails at the first word that no text can go on with. In front of a word that
cannot be read, of a backslash without a loop and of a missing variable the words can be completed to a
program; the next word, if there is one, makes every text fail in the same way. Loops that are left open
at the end are counted: as many backslashes complete the text, fewer leave the rest of the loops open, and
the first one that is too many is reported. -/
theorem reading_fails_at_first_hopeless_word {source : String} {error : SourceError}
    (h : Program.ofSource source = .error error) :
    let words := Token.wordsOf source
    match error with
    | .unknownCommand token i => words[i]? = some token.text ∧ HopelessAt source error i
    | .endWithoutLoop i => words[i]? = some "\\" ∧ HopelessAt source error i
    | .loopWithoutVariable i =>
      0 < i ∧ i ≤ words.length ∧ words[i - 1]? = some "/" ∧ Viable (words.take i) ∧
        (i < words.length → Dooms (words.take (i + 1)) error) ∧
        (i = words.length → ∃ count, ∀ v, ∃ p, Program.ofSource
          (Token.followedBy source ((Token.bars v).text :: Program.backslashes count)) = .ok p)
    | .unclosedLoops n =>
      0 < n ∧ (∃ p, Program.ofSource (Token.followedBy source (Program.backslashes n)) = .ok p) ∧
        (∀ j < n, Program.ofSource (Token.followedBy source (Program.backslashes j)) =
          .error (.unclosedLoops (n - j))) ∧
        ∀ j, n < j → Program.ofSource (Token.followedBy source (Program.backslashes j)) =
          .error (.endWithoutLoop (words.length + n))
    | .variableTooLarge _ => False := by
  dsimp only
  obtain ⟨front, behind, depth, htokens, hopens, hrefuses⟩ := Program.exists_refuses_of_ofSource h
  have hwords : Token.wordsOf source = (front ++ behind).map Token.text := by
    rw [← htokens, Token.map_text_ofText]
  cases hrefuses with
  | unknown depth rest word =>
    refine ⟨?_, Program.hopelessAt_of_refuses htokens hopens fun rest => .unknown depth rest word⟩
    simp [hwords]
  | backslash rest =>
    refine ⟨?_, Program.hopelessAt_of_refuses htokens hopens .backslash⟩
    simp [hwords, Token.text, Glyph.char]
  | @operand operand depth rest word =>
    have hlength : (Token.wordsOf source).length = front.length + rest.length + 2 := by
      simp [hwords, Nat.add_assoc]
    have hlonger : Token.ofText source = (front ++ [[.slash], operand]) ++ rest := by
      simp [htokens]
    have htake := Program.take_wordsOf hlonger
    rw [List.length_append] at htake
    refine ⟨by omega, by omega, ?_, Program.viable_of_slash htokens hopens, fun _ => ?_, fun _ => ?_⟩
    · simp [hwords, Token.text, Glyph.char]
    · exact htake ▸ Program.dooms_of_refuses hopens fun rest => .operand depth rest word
    · omega
  | noOperand depth =>
    have hlength : (Token.wordsOf source).length = front.length + 1 := by simp [hwords]
    refine ⟨by omega, by omega, ?_, Program.viable_of_slash htokens hopens, fun _ => ?_, fun _ => ?_⟩
    · simp [hwords, Token.text, Glyph.char]
    · omega
    · exact ⟨depth + 1, Program.exists_ofSource_followedBy_bars htokens hopens⟩
  | unclosed depth =>
    rw [List.append_nil] at htokens
    rw [← htokens] at hopens
    refine ⟨Nat.succ_pos depth, Program.exists_ofSource_followedBy_backslashes hopens, ?_, ?_⟩
    · exact fun j => Program.ofSource_followedBy_few_backslashes hopens
    · exact fun j => Program.ofSource_followedBy_many_backslashes hopens

/-- A mixed word in an open loop, a variable missing inside and one at the end, and two open loops. -/
theorem reading_fails_in_open_loops :
    (Program.ofSource "/ | do |!| \\" = .error (.unknownCommand [.bar, .bang, .bar] 2) ∧
      Viable ["/", "|"] ∧ Dooms ["/", "|", "|!|"] (.unknownCommand [.bar, .bang, .bar] 2)) ∧
    (Program.ofSource "/ | / \\" = .error (.loopWithoutVariable 3) ∧
      Viable ["/", "|", "/"] ∧ Dooms ["/", "|", "/", "\\"] (.loopWithoutVariable 3)) ∧
    (Program.ofSource "! /" = .error (.loopWithoutVariable 2) ∧ ∃ count, ∀ v, ∃ p,
      Program.ofSource (Token.followedBy "! /" ((Token.bars v).text :: Program.backslashes count)) =
        .ok p) ∧
    Program.ofSource "/ | / || !" = .error (.unclosedLoops 2) ∧
      Program.ofSource (Token.followedBy "/ | / || !" (Program.backslashes 1)) =
        .error (.unclosedLoops 1) ∧
      Program.ofSource (Token.followedBy "/ | / || !" (Program.backslashes 7)) =
        .error (.endWithoutLoop 7) := by
  have hmixed : Program.ofSource "/ | do |!| \\" = .error (.unknownCommand [.bar, .bang, .bar] 2) := by
    decide
  have hinside : Program.ofSource "/ | / \\" = .error (.loopWithoutVariable 3) := by decide
  have hend : Program.ofSource "! /" = .error (.loopWithoutVariable 2) := by decide
  have hopen : Program.ofSource "/ | / || !" = .error (.unclosedLoops 2) := by decide
  obtain ⟨-, hmixed'⟩ := reading_fails_at_first_hopeless_word hmixed
  obtain ⟨-, -, -, hviable, hdooms, -⟩ := reading_fails_at_first_hopeless_word hinside
  obtain ⟨-, -, -, -, -, hcompletes⟩ := reading_fails_at_first_hopeless_word hend
  obtain ⟨-, -, hfew, hmany⟩ := reading_fails_at_first_hopeless_word hopen
  exact ⟨⟨hmixed, hmixed'.viable, hmixed'.dooms⟩, ⟨hinside, hviable, hdooms (by decide)⟩,
    ⟨hend, hcompletes (by decide)⟩, hopen, hfew 1 (by decide), hmany 7 (by decide)⟩

end FlipLoop
