import Naja.Vhdl.LexerTokens

/-! A source as a list of blanks, comments and tokens. The scanner passes over this list: what
it does with one element does not depend on what follows. -/

namespace Naja.Vhdl.Lexer
open Parser

inductive Element where
  | blank (c : Char)
  | comment (text : List Char)
  | token (scanned : Scanned) (text : List Char)

namespace Element

def text : Element → List Char
  | blank c => [c]
  | comment text => text
  | token _ text => text

def isToken : Element → Bool
  | token .. => true
  | _ => false

end Element

/-- Two dashes start a comment. -/
def startsComment (rest : List Char) : Bool := peek rest 0 == '-' && peek rest 1 == '-'

def upToNewline (rest : List Char) : List Char := rest.takeWhile (fun c => c != '\n')

/-- The first element of a source that is not empty. -/
def element (rest : List Char) : Element :=
  if isWhitespace (peek rest 0) then .blank (peek rest 0)
  else if startsComment rest then .comment (upToNewline rest)
  else .token (scanToken rest) (rest.take (scanToken rest).length)

/-- The byte after a run is not in it. -/
theorem peek_after_run (p : Char → Bool) (rest : List Char) (silent : p nul = false) :
    p (peek (rest.drop (rest.takeWhile p).length) 0) = false := by
  induction rest with
  | nil => exact silent
  | cons c tail ih =>
      by_cases run : p c = true
      · rw [List.takeWhile_cons_of_pos run, List.length_cons, List.drop_succ_cons]
        exact ih
      · rw [List.takeWhile_cons_of_neg run]
        exact Bool.not_eq_true _ ▸ run

theorem upToNewline_pos (rest : List Char) (comment : startsComment rest = true) :
    1 < (upToNewline rest).length := by
  unfold startsComment at comment
  rw [Bool.and_eq_true, beq_iff_eq, beq_iff_eq] at comment
  have more : 1 < rest.length := by
    apply lt_of_peek
    rw [comment.2]
    decide
  obtain ⟨c, d, tail, rfl⟩ : ∃ c d tail, rest = c :: d :: tail := by
    match rest, more with
    | c :: d :: tail, _ => exact ⟨c, d, tail, rfl⟩
  obtain rfl : c = '-' := comment.1
  obtain rfl : d = '-' := comment.2
  unfold upToNewline
  rw [List.takeWhile_cons_of_pos (by decide), List.takeWhile_cons_of_pos (by decide), List.length_cons, List.length_cons]
  omega

/-- The first element is a front part of the source with a byte. -/
theorem element_text (rest : List Char) (some_ : rest ≠ []) :
    (element rest).text ≠ [] ∧ rest = (element rest).text ++ rest.drop (element rest).text.length := by
  obtain ⟨c, tail, rfl⟩ := List.exists_cons_of_ne_nil some_
  unfold element
  split
  · exact ⟨List.cons_ne_nil _ _, rfl⟩
  · split
    · next comment =>
        have positive := upToNewline_pos (c :: tail) comment
        refine ⟨List.ne_nil_of_length_pos (by show 0 < (upToNewline _).length; omega), ?_⟩
        show _ = upToNewline _ ++ (c :: tail).drop (upToNewline _).length
        have whole := List.prefix_iff_eq_take.mp (List.takeWhile_prefix (fun c => c != '\n') (l := c :: tail))
        calc c :: tail = (c :: tail).take (upToNewline (c :: tail)).length ++ (c :: tail).drop (upToNewline (c :: tail)).length :=
              (List.take_append_drop _ _).symm
          _ = _ := congrArg (· ++ _) whole.symm
    · obtain ⟨positive, le⟩ := scanToken_length (c :: tail) some_
      have length : ((c :: tail).take (scanToken (c :: tail)).length).length = (scanToken (c :: tail)).length := by
        rw [List.length_take, Nat.min_eq_left le]
      refine ⟨List.ne_nil_of_length_pos (by show 0 < ((c :: tail).take _).length; omega), ?_⟩
      show _ = (c :: tail).take _ ++ (c :: tail).drop ((c :: tail).take _).length
      rw [length, List.take_append_drop]

theorem element_length (rest : List Char) (some_ : rest ≠ []) :
    (rest.drop (element rest).text.length).length < rest.length := by
  obtain ⟨own, -⟩ := element_text rest some_
  have positive := List.length_pos_iff.mpr own
  have all := List.length_pos_iff.mpr some_
  rw [List.length_drop]
  omega

/-- The elements of a source. -/
def elements (rest : List Char) : List Element :=
  if some_ : rest = [] then [] else element rest :: elements (rest.drop (element rest).text.length)
termination_by rest.length
decreasing_by exact element_length rest some_

theorem elements_nil : elements [] = [] := by
  rw [elements, dif_pos rfl]

theorem elements_eq (rest : List Char) (some_ : rest ≠ []) :
    elements rest = element rest :: elements (rest.drop (element rest).text.length) := by
  rw [elements, dif_neg some_]

/-- The elements are the whole source. -/
theorem flatMap_elements (rest : List Char) : (elements rest).flatMap Element.text = rest := by
  induction length : rest.length using Nat.strongRecOn generalizing rest with
  | ind n ih =>
      by_cases some_ : rest = []
      · rw [some_, elements_nil]
        rfl
      · have shorter := element_length rest some_
        rw [elements_eq rest some_, List.flatMap_cons, ih _ (length ▸ shorter) _ rfl]
        exact (element_text rest some_).2.symm

namespace Scanner

/-- What the scanner does with one element. -/
def pass (synthesis : Bool) (scanner : Scanner) : Element → Scanner
  | .blank _ => scanner.advance 1
  | .comment text =>
      if synthesis then (scanner.advance text.length).pragma scanner.position (text.drop 2)
      else scanner.advance text.length
  | .token scanned text =>
      ((scanner.advance scanned.length).diagnose scanned.message scanner.position).emit scanned.kind scanner.position
        text scanned.canonical

/-- The pass over all elements of what is left. -/
def run (synthesis : Bool) (scanner : Scanner) : Scanner := (elements scanner.rest).foldl (pass synthesis) scanner

section Rest
variable (scanner : Scanner)

@[simp] theorem advance_rest (n : Nat) : (scanner.advance n).rest = scanner.rest.drop n := rfl

@[simp] theorem diagnose_rest (message : Option String) (start : SourcePosition) :
    (scanner.diagnose message start).rest = scanner.rest := by
  unfold diagnose
  split
  · rfl
  · split <;> rfl

@[simp] theorem emit_rest (kind : TokenKind) (start : SourcePosition) (text canonical : List Char) :
    (scanner.emit kind start text canonical).rest = scanner.rest := by
  unfold emit
  split <;> rfl

@[simp] theorem pragma_rest (start : SourcePosition) (comment : List Char) :
    (scanner.pragma start comment).rest = scanner.rest := by
  unfold pragma
  split
  · rfl
  · split <;> rfl
  · split <;> rfl

theorem run_of_nil (synthesis : Bool) (empty : scanner.rest = []) : scanner.run synthesis = scanner := by
  unfold run
  rw [empty, elements_nil]
  rfl

/-- The first element is passed, then the others. -/
theorem run_eq (synthesis : Bool) (some_ : scanner.rest ≠ [])
    (rest : (pass synthesis scanner (element scanner.rest)).rest =
      scanner.rest.drop (element scanner.rest).text.length) :
    scanner.run synthesis = (pass synthesis scanner (element scanner.rest)).run synthesis := by
  unfold run
  rw [elements_eq scanner.rest some_, List.foldl_cons, rest]

end Rest

theorem advance_advance (scanner : Scanner) (m n : Nat) : (scanner.advance m).advance n = scanner.advance (m + n) := by
  unfold advance
  dsimp only
  rw [List.drop_drop]
  congr 1
  unfold SourcePosition.after
  rw [← List.foldl_append, List.take_add]

/-- A run of white space is passed byte by byte. -/
theorem run_blanks (synthesis : Bool) (scanner : Scanner) :
    (scanner.advance (scanner.rest.takeWhile isWhitespace).length).run synthesis = scanner.run synthesis := by
  induction length : scanner.rest.length generalizing scanner with
  | zero =>
      have empty := List.length_eq_zero_iff.mp length
      rw [empty]
      rfl
  | succ n ih =>
      obtain ⟨c, tail, whole⟩ := List.exists_cons_of_length_eq_add_one length
      by_cases blank : isWhitespace c = true
      · have first : element scanner.rest = .blank c := by
          rw [whole, element]
          exact if_pos blank
        have step : scanner.run synthesis = (scanner.advance 1).run synthesis := by
          have passed := run_eq scanner synthesis (by rw [whole]; exact List.cons_ne_nil c tail)
          rw [first] at passed
          exact passed rfl
        have further := ih (scanner.advance 1) (by rw [advance_rest, List.length_drop, length]; rfl)
        rw [advance_advance, advance_rest, whole, List.drop_succ_cons, List.drop_zero] at further
        rw [step, ← further, whole, List.takeWhile_cons_of_pos blank, List.length_cons, Nat.add_comm]
      · rw [whole, List.takeWhile_cons_of_neg blank]
        rfl

theorem run_comment (synthesis : Bool) (scanner : Scanner) (plain : ¬ isWhitespace (peek scanner.rest 0) = true)
    (comment : startsComment scanner.rest = true) :
    (pass synthesis scanner (.comment (upToNewline scanner.rest))).run synthesis = scanner.run synthesis := by
  have first : element scanner.rest = .comment (upToNewline scanner.rest) := by
    unfold element
    rw [if_neg plain, if_pos comment]
  have some_ : scanner.rest ≠ [] := by
    intro empty
    rw [empty] at comment
    contradiction
  have passed := run_eq scanner synthesis some_
  rw [first] at passed
  apply (passed _).symm
  unfold pass
  dsimp only
  split
  · rw [pragma_rest]
    rfl
  · rfl

theorem run_token (synthesis : Bool) (scanner : Scanner) (some_ : scanner.rest ≠ [])
    (plain : ¬ isWhitespace (peek scanner.rest 0) = true) (code : ¬ startsComment scanner.rest = true) :
    scanner.scanOne.run synthesis = scanner.run synthesis := by
  have first : element scanner.rest =
      .token (scanToken scanner.rest) (scanner.rest.take (scanToken scanner.rest).length) := by
    unfold element
    rw [if_neg plain, if_neg code]
  have passed := run_eq scanner synthesis some_
  rw [first] at passed
  apply (passed _).symm
  unfold pass
  dsimp only
  rw [emit_rest, diagnose_rest, advance_rest]
  show _ = scanner.rest.drop (scanner.rest.take _).length
  rw [List.length_take, Nat.min_eq_left (scanToken_length scanner.rest some_).2]

theorem pass_comment_rest (synthesis : Bool) (scanner : Scanner) (text : List Char) :
    (pass synthesis scanner (.comment text)).rest = scanner.rest.drop text.length := by
  unfold pass
  dsimp only
  split
  · rw [pragma_rest]
    rfl
  · rfl

/-- `skipTrivia` passes elements, and stops before a token or at the end. -/
theorem skipTrivia_spec (synthesis : Bool) (fuel : Nat) (scanner : Scanner) (enough : scanner.rest.length < fuel) :
    let behind := skipTrivia synthesis fuel scanner
    behind.run synthesis = scanner.run synthesis ∧ behind.rest.length ≤ scanner.rest.length ∧
      ¬ isWhitespace (peek behind.rest 0) = true ∧ ¬ startsComment behind.rest = true := by
  induction fuel generalizing scanner with
  | zero => omega
  | succ fuel ih =>
      have blanks := run_blanks synthesis scanner
      have stopped : ¬ isWhitespace (peek (scanner.advance (scanner.rest.takeWhile isWhitespace).length).rest 0) = true := by
        rw [advance_rest, peek_after_run isWhitespace scanner.rest (by decide)]
        exact Bool.false_ne_true
      have shorter : (scanner.advance (scanner.rest.takeWhile isWhitespace).length).rest.length ≤ scanner.rest.length := by
        rw [advance_rest, List.length_drop]
        omega
      unfold skipTrivia
      dsimp only
      generalize scanner.advance (scanner.rest.takeWhile isWhitespace).length = behind at blanks stopped shorter
      by_cases comment : startsComment behind.rest = true
      · have passed := run_comment synthesis behind stopped comment
        have positive := upToNewline_pos behind.rest comment
        have less : (pass synthesis behind (.comment (upToNewline behind.rest))).rest.length < behind.rest.length := by
          have whole := (List.takeWhile_prefix (fun c => c != '\n') (l := behind.rest)).length_le
          have within : (upToNewline behind.rest).length ≤ behind.rest.length := whole
          rw [pass_comment_rest, List.length_drop]
          omega
        obtain ⟨same, le, stop⟩ := ih (pass synthesis behind (.comment (upToNewline behind.rest))) (by omega)
        unfold startsComment at comment
        rw [Bool.and_eq_true, beq_iff_eq, beq_iff_eq] at comment
        rw [comment.1, comment.2]
        exact ⟨by rw [← blanks, ← passed]; exact same, Nat.le_trans le (by omega), stop⟩
      · have code := comment
        unfold startsComment at code
        have result : (if (peek behind.rest 0 != '-') = true then behind
            else if (peek behind.rest 1 != '-') = true then behind
            else skipTrivia synthesis fuel (if synthesis = true then
              (behind.advance (behind.rest.takeWhile (fun c => c != '\n')).length).pragma behind.position
                ((behind.rest.takeWhile (fun c => c != '\n')).drop 2)
              else behind.advance (behind.rest.takeWhile (fun c => c != '\n')).length)) = behind := by
          by_cases dash : peek behind.rest 0 = '-'
          · rw [dash, beq_self_eq_true, Bool.true_and, beq_iff_eq] at code
            rw [if_neg (by rw [dash]; decide), if_pos (by rw [bne_iff_ne]; exact code)]
          · rw [if_pos (by rw [bne_iff_ne]; exact dash)]
        rw [result]
        exact ⟨blanks, shorter, stopped, comment⟩

/-- The loop passes all elements. -/
theorem loop_eq (synthesis : Bool) (fuel : Nat) (scanner : Scanner) (enough : scanner.rest.length < fuel) :
    loop synthesis fuel scanner = scanner.run synthesis := by
  induction fuel generalizing scanner with
  | zero => omega
  | succ fuel ih =>
      unfold loop
      by_cases empty : scanner.rest = []
      · rw [if_pos empty, run_of_nil scanner synthesis empty]
      · rw [if_neg empty]
        obtain ⟨same, shorter, plain, code⟩ :=
          skipTrivia_spec synthesis (scanner.rest.length + 1) scanner (Nat.lt_succ_self _)
        dsimp only
        generalize skipTrivia synthesis (scanner.rest.length + 1) scanner = behind at same shorter plain code
        by_cases ended : behind.rest = []
        · rw [if_pos ended, ← same, run_of_nil behind synthesis ended]
        · have positive := scanToken_length behind.rest ended
          have less : behind.scanOne.rest.length < behind.rest.length := by
            unfold scanOne
            dsimp only
            rw [emit_rest, diagnose_rest, advance_rest, List.length_drop]
            omega
          rw [if_neg ended, ih behind.scanOne (by omega), run_token synthesis behind ended plain code, same]

end Scanner

/-- The lexer passes the elements of the source. -/
theorem scan_eq (source : List Char) (synthesis : Bool) :
    scan source synthesis = ((elements source).foldl (Scanner.pass synthesis) { rest := source }).result := by
  unfold scan
  rw [Scanner.loop_eq synthesis (source.length + 1) { rest := source } (Nat.lt_succ_self _)]
  rfl

end Naja.Vhdl.Lexer
