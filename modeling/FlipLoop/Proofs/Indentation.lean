import FlipLoop.Proofs.ListingText
import FlipLoop.Proofs.Nesting

/-!
# Indentation shows nesting

The listing of a balanced program has a line for each instruction, and two blanks in front of it for each
loop around the instruction. The bracket search can therefore be done by eye: the end of a loop is the
next backslash that stands as far in as its head.
-/

namespace FlipLoop

namespace Instr

lemma feed_notMem_numeralText (i : Instr) : '\n' ∉ i.numeralText.toList := by
  have hnumeral : ∀ v : Nat, '\n' ∉ v.repr.toList := by
    intro v h
    exact absurd (Text.isDigit_of_mem_repr h) (by decide)
  cases i with
  | flip v => exact hnumeral v
  | enter v => simpa [numeralText] using hnumeral v
  | back => decide
  | emit => decide

/-- The text of an instruction does not begin with a blank. -/
lemma exists_numeralText_eq_cons (i : Instr) : ∃ c rest, i.numeralText.toList = c :: rest ∧ c ≠ ' ' := by
  cases i with
  | flip v =>
    obtain ⟨c, rest, hv⟩ := List.exists_cons_of_ne_nil (Text.toList_repr_ne_nil v)
    refine ⟨c, rest, hv, ?_⟩
    rintro rfl
    exact Text.toList_repr_ne_cons (by decide) v rest hv
  | enter v => exact ⟨'/', ' ' :: v.repr.toList, by simp [numeralText], by decide⟩
  | back => exact ⟨'\\', [], rfl, by decide⟩
  | emit => exact ⟨'!', [], rfl, by decide⟩

end Instr

namespace Line

variable (line : Line)

lemma takeWhile_toList_text : line.text.toList.takeWhile (· = ' ') = line.blanks := by
  obtain ⟨c, rest, hc, hne⟩ := line.instr.exists_numeralText_eq_cons
  have hblanks : ∀ b ∈ line.blanks, decide (b = ' ') = true :=
    fun b hb => decide_eq_true (List.eq_of_mem_replicate hb)
  rw [toList_text, List.takeWhile_append_of_pos hblanks, hc, List.takeWhile_cons_of_neg (by simpa using hne),
    List.append_nil]

lemma dropWhile_toList_text : line.text.toList.dropWhile (· = ' ') = line.instr.numeralText.toList := by
  obtain ⟨c, rest, hc, hne⟩ := line.instr.exists_numeralText_eq_cons
  have hblanks : ∀ b ∈ line.blanks, decide (b = ' ') = true :=
    fun b hb => decide_eq_true (List.eq_of_mem_replicate hb)
  rw [toList_text, List.dropWhile_append_of_pos hblanks, hc, List.dropWhile_cons_of_neg (by simpa using hne)]

lemma feed_notMem_text : '\n' ∉ line.text.toList := by
  rw [toList_text, List.mem_append, not_or]
  refine ⟨fun h => ?_, line.instr.feed_notMem_numeralText⟩
  exact absurd (List.eq_of_mem_replicate h) (by decide)

/-- Lines are told apart by their line feeds, and nothing stands behind the last one. -/
theorem splitOn_flatMap_chars (lines : List Line) :
    (lines.flatMap chars).splitOn '\n' = lines.map (fun line => line.text.toList) ++ [[]] := by
  induction lines with
  | nil => rfl
  | cons line lines ih =>
    have hline : ∀ c ∈ line.text.toList, (c == '\n') = false := by
      intro c hc
      rw [beq_eq_false_iff_ne]
      rintro rfl
      exact line.feed_notMem_text hc
    rw [List.flatMap_cons, chars, List.append_assoc, List.singleton_append, List.splitOn,
      List.splitOnP_append_cons_of_forall_mem hline '\n' rfl]
    exact congrArg (line.text.toList :: ·) ih

end Line

namespace Program

/-- The pieces of the listing between its line feeds. -/
def printedLines (p : Program) : List (List Char) :=
  p.listing.toList.splitOn '\n'

/-- The number of blanks in front of line `i` of the listing. -/
def indentation (p : Program) (i : Nat) : Nat :=
  ((p.printedLines.getD i []).takeWhile (· = ' ')).length

/-- Line `i` of the listing without the blanks in front of it. -/
def contents (p : Program) (i : Nat) : List Char :=
  (p.printedLines.getD i []).dropWhile (· = ' ')

/-- Line `j` is the next one behind line `i` that is a backslash with the indentation of line `i`. -/
structure NextEnd (p : Program) (i j : Nat) : Prop where
  lt : i < j
  contents_eq : p.contents j = ['\\']
  indentation_eq : p.indentation j = p.indentation i
  first : ∀ k, i < k → k < j → p.contents k = ['\\'] → p.indentation k ≠ p.indentation i

/-- What the indentation of a listing says of the loops of its program. -/
structure IndentedByNesting (p : Program) : Prop where
  /-- Every instruction has a line, and behind the last line feed stands nothing. -/
  printedLines_eq : ∃ rows, p.printedLines = rows ++ [[]] ∧ rows.length = p.length
  contents_eq : ∀ i instr, p[i]? = some instr → p.contents i = instr.numeralText.toList
  indentation_eq : ∀ i < p.length, p.indentation i = 2 * (loopsAround p.toArray i).card
  /-- The depth of a line is exactly what is opened in front of it and not closed there or by the line
  itself. So no loop is left where none is open. -/
  depth_add_backs : ∀ i line, p.lines[i]? = some line →
    line.depth + Program.backs (p.take (i + 1)) = Program.enters (p.take i)
  indentation_last : p ≠ [] → p.indentation (p.length - 1) = 0
  closes : ∀ i v, p[i]? = some (.enter v) → ∃ j, closing? p.toArray i = some j
  body_deeper : ∀ i v j, p[i]? = some (.enter v) → closing? p.toArray i = some j →
    p.indentation j = p.indentation i ∧ ∀ k, i < k → k < j → p.indentation i < p.indentation k
  closing_iff_nextEnd : ∀ i v j, p[i]? = some (.enter v) →
    (closing? p.toArray i = some j ↔ p.NextEnd i j)

variable {p q : Program} {i j k depth depth' : Nat} {a : Instr}

/-- An instruction that leaves no loop where none is open: its line, and the lines from the depth that it
leads to on. -/
lemma linesOnto_cons (h : loopsAfter? depth [a] = some depth') (q : Program) :
    linesOnto [] depth (a :: q) = ⟨if a = .back then depth' else depth, a⟩ :: linesOnto [] depth' q := by
  cases a with
  | flip v | emit | enter v =>
    obtain rfl := Option.some_inj.mp h
    simp only [linesOnto]
    rw [linesOnto_eq]
    rfl
  | back =>
    cases depth with
    | zero => cases h
    | succ depth =>
      obtain rfl := Option.some_inj.mp h
      simp only [linesOnto]
      rw [linesOnto_eq]
      rfl

lemma linesOnto_append (h : loopsAfter? depth p = some depth') (q : Program) :
    linesOnto [] depth (p ++ q) = linesOnto [] depth p ++ linesOnto [] depth' q := by
  induction p generalizing depth with
  | nil =>
    obtain rfl := Option.some_inj.mp h
    rfl
  | cons a p ih =>
    obtain ⟨k, ha, hp⟩ := loopsAfter?_append_eq_some_iff (p := [a]).mp h
    rw [List.cons_append, linesOnto_cons ha, linesOnto_cons ha, ih hp, List.cons_append]

lemma length_lines (p : Program) : p.lines.length = p.length := by
  rw [← List.length_map (f := Line.instr), map_instr_lines]

/-- The line of an instruction is as deep as there are loops around the instruction. -/
theorem Balanced.getElem?_lines (hp : p.Balanced) (hi : p[i]? = some a) :
    p.lines[i]? = some ⟨(loopsAround p.toArray i).card, a⟩ := by
  have hcard : (loopsAround p.toArray i).card =
      if a = .back then p.depthBefore (i + 1) else p.depthBefore i := by
    by_cases hback : a = .back
    · rw [if_pos hback, hp.card_loopsAround_of_back (hback ▸ hi)]
    · rw [if_neg hback, hp.card_loopsAround_of_ne_back hi hback]
  have hstep := hp.loopsAfter?_singleton hi
  obtain ⟨hlt, rfl⟩ := List.getElem?_eq_some_iff.mp hi
  have hlength : (linesOnto [] 0 (p.take i)).length = i := by
    have htake := length_lines (p.take i)
    rwa [List.length_take, Nat.min_eq_left (Nat.le_of_lt hlt)] at htake
  have hlines := linesOnto_append (hp.loopsAfter?_take i) (p.drop i)
  rw [List.take_append_drop, List.drop_eq_getElem_cons hlt, linesOnto_cons hstep] at hlines
  rw [lines, hlines, List.getElem?_append_right (Nat.le_of_eq hlength), hlength, Nat.sub_self, hcard]
  rfl

section Text

lemma printedLines_eq (p : Program) :
    p.printedLines = p.lines.map (fun line => line.text.toList) ++ [[]] := by
  rw [printedLines, toList_listing, Line.splitOn_flatMap_chars]

lemma getD_printedLines (p : Program) (i : Nat) :
    p.printedLines.getD i [] = (p.lines[i]?.map fun line => line.text.toList).getD [] := by
  rw [printedLines_eq, List.getD_eq_getElem?_getD]
  by_cases hlt : i < p.lines.length
  · rw [List.getElem?_append_left (by rwa [List.length_map]), List.getElem?_map]
  · have hnone : p.lines[i]? = none := List.getElem?_eq_none (Nat.le_of_not_lt hlt)
    rw [List.getElem?_append_right (by simpa using hlt), hnone]
    cases i - (p.lines.map fun line => line.text.toList).length <;> rfl

lemma indentation_of_line {line : Line} (h : p.lines[i]? = some line) :
    p.indentation i = 2 * line.depth := by
  rw [indentation, getD_printedLines, h, Option.map_some, Option.getD_some, line.takeWhile_toList_text,
    Line.blanks, List.length_replicate]

lemma contents_of_line {line : Line} (h : p.lines[i]? = some line) :
    p.contents i = line.instr.numeralText.toList := by
  rw [contents, getD_printedLines, h, Option.map_some, Option.getD_some, line.dropWhile_toList_text]

end Text

namespace Balanced

lemma indentation_eq (hp : p.Balanced) (hi : p[i]? = some a) :
    p.indentation i = 2 * (loopsAround p.toArray i).card :=
  indentation_of_line (hp.getElem?_lines hi)

lemma contents_eq (hp : p.Balanced) (hi : p[i]? = some a) : p.contents i = a.numeralText.toList :=
  contents_of_line (hp.getElem?_lines hi)

lemma card_add_backs (hp : p.Balanced) (hi : p[i]? = some a) :
    (loopsAround p.toArray i).card + Program.backs (p.take (i + 1)) = Program.enters (p.take i) := by
  have hle := hp.backs_take_le i
  have hle' := hp.backs_take_le (i + 1)
  have htake : p.take (i + 1) = p.take i ++ [a] := by rw [List.take_add_one, hi, Option.toList_some]
  by_cases hback : a = .back
  · subst hback
    rw [hp.card_loopsAround_of_back hi, depthBefore, Nat.sub_add_cancel hle', htake]
    simp [Program.enters, Instr.isEnter]
  · have hnot : a.isBack = false := by cases a <;> simp_all [Instr.isBack]
    rw [hp.card_loopsAround_of_ne_back hi hback, depthBefore, htake]
    simp only [Program.backs, List.countP_append, List.countP_singleton, hnot] at *
    simpa using Nat.sub_add_cancel hle

/-- The end of a loop stands as far in as its head, and what is between them stands further in. -/
lemma indentation_of_loopEnd (hp : p.Balanced) (h : loopEnd? p.toArray i = some j) :
    p.indentation j = p.indentation i ∧
      ∀ k, i < k → k < j → p.indentation i < p.indentation k := by
  obtain ⟨⟨v, henter⟩, hclosing⟩ := loopEnd?_eq_some_iff.mp h
  obtain ⟨hend, hbody⟩ := hp.depthBefore_of_loopEnd h
  have hhead : p[i]? = some (.enter v) := by rwa [List.getElem?_toArray] at henter
  have hback : p[j]? = some .back := by
    have hfetched := hclosing.fetched
    rwa [List.getElem?_toArray] at hfetched
  have hlt : j < p.length := (List.getElem?_eq_some_iff.mp hback).1
  have hbehind := hp.depthBefore_of_back hback
  rw [hp.indentation_eq hhead, hp.card_loopsAround_of_ne_back hhead (by simp)]
  constructor
  · rw [hp.indentation_eq hback, hp.card_loopsAround_of_back hback]
    omega
  · intro k hik hkj
    have hfetched : p[k]? = some p[k] := List.getElem?_eq_getElem (by omega)
    rw [hp.indentation_eq hfetched]
    by_cases hinner : p[k] = .back
    · have hdeeper := hbody (k + 1) (by omega) hkj
      rw [hp.card_loopsAround_of_back (hinner ▸ hfetched)]
      omega
    · have hdeeper := hbody k hik (Nat.le_of_lt hkj)
      rw [hp.card_loopsAround_of_ne_back hfetched hinner]
      omega

lemma nextEnd_of_loopEnd (hp : p.Balanced) (h : loopEnd? p.toArray i = some j) : p.NextEnd i j := by
  obtain ⟨hend, hbody⟩ := hp.indentation_of_loopEnd h
  have hback : p[j]? = some .back := by
    have hfetched := back_of_loopEnd h
    rwa [List.getElem?_toArray] at hfetched
  refine ⟨lt_of_loopEnd h, hp.contents_eq hback, hend, fun k hik hkj _ => ?_⟩
  exact Nat.ne_of_gt (hbody k hik hkj)

end Balanced

lemma NextEnd.unique (h : p.NextEnd i j) (h' : p.NextEnd i k) : j = k := by
  obtain hlt | heq | hgt := Nat.lt_trichotomy j k
  · exact absurd h.indentation_eq (h'.first j h.lt hlt h.contents_eq)
  · exact heq
  · exact absurd h'.indentation_eq (h.first k h'.lt hgt h'.contents_eq)

end Program

/-- The listing of a balanced program is indented by nesting. Two blanks stand in front of each
instruction for each loop around it, and the head and the end of a loop, as the bracket search pairs
them, are a line and the next backslash with the same indentation. -/
theorem listing_is_indented_by_nesting {p : Program} (hp : p.Balanced) : p.IndentedByNesting := by
  have hloop : ∀ {i v}, p[i]? = some (.enter v) →
      Program.loopEnd? p.toArray i = Program.closing? p.toArray i := by
    intro i v hi
    rw [Program.loopEnd?, List.getElem?_toArray, hi]
  constructor
  case printedLines_eq =>
    exact ⟨_, p.printedLines_eq, by rw [List.length_map, p.length_lines]⟩
  case contents_eq =>
    exact fun i instr hi => hp.contents_eq hi
  case indentation_eq =>
    exact fun i hi => hp.indentation_eq (List.getElem?_eq_getElem hi)
  case depth_add_backs =>
    intro i line hline
    have hlt : i < p.length := by
      rw [← p.length_lines]
      exact (List.getElem?_eq_some_iff.mp hline).1
    have hi : p[i]? = some p[i] := List.getElem?_eq_getElem hlt
    obtain rfl := Option.some_inj.mp (hline.symm.trans (hp.getElem?_lines hi))
    exact hp.card_add_backs hi
  case indentation_last =>
    intro hne
    have hlt : p.length - 1 < p.length := Nat.sub_lt (List.length_pos_iff.mpr hne) (by decide)
    have hi : p[p.length - 1]? = some p[p.length - 1] := List.getElem?_eq_getElem hlt
    have hexact := hp.card_add_backs hi
    have hall := hp.backs_eq
    have hbefore : Program.enters (p.take (p.length - 1)) ≤ p.enters :=
      List.Sublist.countP_le (List.take_sublist _ _)
    rw [show p.length - 1 + 1 = p.length by omega, List.take_length] at hexact
    rw [hp.indentation_eq hi]
    omega
  case closes =>
    intro i v hi
    rw [← hloop hi]
    exact hp.exists_loopEnd hi
  case body_deeper =>
    intro i v j hi hj
    rw [← hloop hi] at hj
    exact hp.indentation_of_loopEnd hj
  case closing_iff_nextEnd =>
    intro i v j hi
    rw [← hloop hi]
    refine ⟨hp.nextEnd_of_loopEnd, fun hnext => ?_⟩
    obtain ⟨stop, hstop⟩ := hp.exists_loopEnd hi
    obtain rfl := hnext.unique (hp.nextEnd_of_loopEnd hstop)
    exact hstop

/-- Two loops in a loop: the end of each is the next backslash below its head. -/
theorem listing_of_sibling_loops :
    let p : Program := [.enter 0, .enter 1, .flip 12, .back, .enter 2, .back, .back, .emit]
    p.Balanced ∧ p.listing = "/ 0\n  / 1\n    12\n  \\\n  / 2\n  \\\n\\\n!\n" ∧ p.indentation 2 = 4 ∧
      p.NextEnd 0 6 ∧ p.NextEnd 1 3 ∧ p.NextEnd 4 5 := by
  intro p
  have hp : p.Balanced := by decide
  obtain ⟨-, -, hindentation, -, -, -, -, hends⟩ := listing_is_indented_by_nesting hp
  refine ⟨hp, by decide, ?_, ?_, ?_, ?_⟩
  · exact (hindentation 2 (by decide)).trans (by decide)
  · exact (hends 0 0 6 rfl).mp (by decide)
  · exact (hends 1 1 3 rfl).mp (by decide)
  · exact (hends 4 2 5 rfl).mp (by decide)

end FlipLoop
