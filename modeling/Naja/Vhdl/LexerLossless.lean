import Naja.Vhdl.LexerRuns

/-! The lexer is lossless: its tokens and what is skipped between them are the source, every
token can be scanned alone, and synthesis drops the tokens of the excluded regions. -/

namespace Naja.Vhdl.Lexer
open Parser

/-- The position of an offset: one line for each newline before it. -/
def positionOf (source : List Char) (offset : Nat) : SourcePosition where
  offset := offset
  line := 1 + (source.take offset).count '\n'
  column := 1 + ((source.take offset).reverse.takeWhile (fun c => c != '\n')).length

def slice (source : List Char) (start stop : Nat) : List Char := (source.drop start).take (stop - start)

/-- White space and line comments; a comment is closed by a newline, or by the end of the
source when the trivia are the last ones. -/
inductive Trivia (last : Bool) : List Char → Prop where
  | nil : Trivia last []
  | blank (c : Char) (rest : List Char) (white : isWhitespace c = true) (further : Trivia last rest) :
      Trivia last (c :: rest)
  | comment (text rest : List Char) (line : '\n' ∉ text) (further : Trivia last ('\n' :: rest)) :
      Trivia last ('-' :: '-' :: text ++ '\n' :: rest)
  | final (text : List Char) (line : '\n' ∉ text) (ends : last = true) : Trivia last ('-' :: '-' :: text)

/-- Only trivia stand before every token, from an offset on. -/
def Gaps (source : List Char) : Nat → List Token → Prop
  | _, [] => True
  | stop, t :: rest =>
      Trivia rest.isEmpty (slice source stop t.span.start.offset) ∧ Gaps source t.span.stop.offset rest

structure Lossless (source : List Char) (tokens : List Token) : Prop where
  ordered : tokens.Pairwise (fun t u => t.span.stop.offset ≤ u.span.start.offset)
  spans : ∀ t ∈ tokens, t.span.start.offset ≤ t.span.stop.offset ∧ t.span.stop.offset ≤ source.length ∧
    (t.kind ≠ .EndOfFile → t.span.start.offset < t.span.stop.offset)
  text : ∀ t ∈ tokens, t.text.toList = slice source t.span.start.offset t.span.stop.offset
  positions : ∀ t ∈ tokens, t.span.start = positionOf source t.span.start.offset ∧
    t.span.stop = positionOf source t.span.stop.offset
  gaps : Gaps source 0 tokens
  last : ∃ front, tokens = front ++ [⟨.EndOfFile, "", "",
      ⟨positionOf source source.length, positionOf source source.length⟩⟩] ∧ ∀ t ∈ front, t.kind ≠ .EndOfFile

/-- What a token is, apart from its place. -/
def Token.content (t : Token) : TokenKind × String × String := (t.kind, t.text, t.canonical)

/-- Scanning the text of a token alone gives the token, and the end of the text. -/
def ScannedAlone (t : Token) : Prop :=
  ∃ front stop, (scan t.text.toList false).tokens = front ++ [stop] ∧ stop.kind = .EndOfFile ∧
    front.map Token.content = if t.kind = .EndOfFile then [] else [Token.content t]

/-! ### Positions -/

theorem after_start (text : List Char) : SourcePosition.after ⟨0, 1, 1⟩ text = positionOf text text.length := by
  induction text using List.reverseRecOn with
  | nil => rfl
  | append_singleton text c ih =>
      rw [SourcePosition.after_append, ih]
      show SourcePosition.advance _ c = _
      unfold positionOf SourcePosition.advance
      rw [List.take_length, List.take_length, List.length_append, List.count_append, List.reverse_append]
      by_cases newline : c = '\n'
      · subst newline
        rfl
      · have other : (c == '\n') = false := beq_false_of_ne newline
        have kept : (c != '\n') = true := bne_iff_ne.mpr newline
        rw [other]
        show (⟨text.length + 1, _, _⟩ : SourcePosition) = ⟨text.length + 1, _, _⟩
        congr 1
        · rw [List.count_singleton, other]
          rfl
        · show _ = 1 + ((c :: text.reverse).takeWhile _).length
          rw [List.takeWhile_cons_of_pos (p := fun c => c != '\n') kept, List.length_cons]
          dsimp only
          omega

theorem positionOf_append (front back : List Char) : positionOf (front ++ back) front.length = positionOf front front.length := by
  unfold positionOf
  rw [List.take_left, List.take_length]

/-! ### Trivia -/

theorem upToNewline_spec (rest : List Char) (comment : startsComment rest = true) :
    ∃ text, upToNewline rest = '-' :: '-' :: text ∧ '\n' ∉ text := by
  have positive := upToNewline_pos rest comment
  have prefix_ := (List.takeWhile_prefix (fun c => c != '\n') (l := rest)).length_le
  have more : 1 < rest.length := Nat.lt_of_lt_of_le positive prefix_
  unfold startsComment at comment
  rw [Bool.and_eq_true, beq_iff_eq, beq_iff_eq] at comment
  match rest, more with
  | c :: d :: tail, _ =>
      obtain rfl : c = '-' := comment.1
      obtain rfl : d = '-' := comment.2
      refine ⟨upToNewline tail, ?_, ?_⟩
      · unfold upToNewline
        rw [List.takeWhile_cons_of_pos (by decide), List.takeWhile_cons_of_pos (by decide)]
      · intro member
        have kept := List.mem_takeWhile_imp member
        contradiction

/-- Behind a comment is a newline, or nothing. -/
theorem behind_comment (rest : List Char) :
    rest.drop (upToNewline rest).length = [] ∨ ∃ tail, rest.drop (upToNewline rest).length = '\n' :: tail := by
  induction rest with
  | nil => exact Or.inl rfl
  | cons c tail ih =>
      by_cases newline : c = '\n'
      · right
        subst newline
        exact ⟨tail, rfl⟩
      · unfold upToNewline
        rw [List.takeWhile_cons_of_pos (p := fun c => c != '\n') (bne_iff_ne.mpr newline), List.length_cons,
          List.drop_succ_cons]
        exact ih

/-- The elements before a token, or before the end, are trivia. -/
theorem trivia_of_elements (skipped : List Element) (es : List Element) (rest : List Char)
    (whole : elements rest = skipped ++ es) (plain : ∀ e ∈ skipped, e.isToken = false)
    (next : ∀ e ∈ es.head?, e.isToken = true) :
    Trivia es.isEmpty (skipped.flatMap Element.text) ∧ es = elements (rest.drop (skipped.flatMap Element.text).length) := by
  induction skipped generalizing rest with
  | nil => exact ⟨.nil, whole.symm⟩
  | cons e skipped ih =>
      have some_ : rest ≠ [] := by
        intro empty
        rw [empty, elements_nil] at whole
        contradiction
      rw [elements_eq rest some_, List.cons_append, List.cons.injEq] at whole
      obtain ⟨same, later⟩ := whole
      obtain ⟨trivia, left⟩ := ih _ later (fun e' member => plain e' (List.mem_cons_of_mem _ member))
      have text := same ▸ (element_text rest some_)
      refine ⟨?_, ?_⟩
      · rw [List.flatMap_cons]
        have code := plain e List.mem_cons_self
        rw [← same] at code ⊢
        unfold element at code later ⊢
        split at code
        · next white =>
            rw [if_pos white]
            exact .blank _ _ white trivia
        · next dark =>
            split at code
            · next comment =>
                rw [if_neg dark, if_pos comment] at later ⊢
                obtain ⟨inner, spelled, line⟩ := upToNewline_spec rest comment
                show Trivia _ (upToNewline rest ++ _)
                rcases behind_comment rest with ended | ⟨tail, newline⟩
                · -- the comment is the last thing of the source
                  change elements (rest.drop (upToNewline rest).length) = _ at later
                  rw [ended, elements_nil] at later
                  obtain ⟨rfl, rfl⟩ := List.append_eq_nil_iff.mp later.symm
                  rw [spelled, List.flatMap_nil, List.append_nil]
                  exact .final inner line rfl
                · -- the newline is the next element
                  change elements (rest.drop (upToNewline rest).length) = _ at later
                  rw [newline, elements_eq _ (List.cons_ne_nil _ _)] at later
                  have blank : element ('\n' :: tail) = .blank '\n' := if_pos (show isWhitespace '\n' = true by decide)
                  rw [blank] at later
                  cases skipped with
                  | nil =>
                      rw [List.nil_append] at later
                      have wrong := next (.blank '\n') (by rw [← later]; rfl)
                      contradiction
                  | cons first skipped =>
                      rw [List.cons_append, List.cons.injEq] at later
                      obtain ⟨rfl, -⟩ := later
                      rw [spelled]
                      exact .comment inner _ line trivia
            · contradiction
      · rw [left, List.drop_drop, same, List.flatMap_cons, List.length_append]

/-! ### The tokens without synthesis -/

theorem identifierKind (rest : List Char) : (scanIdentifier rest).kind ≠ .EndOfFile := by
  unfold scanIdentifier
  dsimp only
  split <;> exact nofun

theorem literalKind (real : Bool) (stop : Nat × Option String) : (literal real stop).kind ≠ .EndOfFile := by
  obtain ⟨n, message⟩ := stop
  cases message with
  | none => cases real <;> exact nofun
  | some message => exact nofun

/-- Only the end of the source is the end of the file. -/
theorem scanToken_kind (rest : List Char) : (scanToken rest).kind ≠ .EndOfFile := by
  unfold scanToken
  dsimp only
  split
  · exact identifierKind rest
  · split
    · unfold scanExtendedIdentifier
      split <;> exact nofun
    · split
      · unfold scanNumber
        dsimp only
        split
        · exact nofun
        · split
          · unfold scanBased
            dsimp only
            split
            · exact nofun
            · split
              · exact nofun
              · exact literalKind _ _
          · unfold scanDecimal
            dsimp only
            split
            · split
              · exact literalKind _ _
              · exact nofun
            · exact literalKind _ _
      · split
        · unfold scanString
          split <;> exact nofun
        · split
          · exact nofun
          · unfold scanSymbol
            split <;> exact nofun

def endOfFile (source : List Char) : Token :=
  ⟨.EndOfFile, "", "", ⟨positionOf source source.length, positionOf source source.length⟩⟩

def start : SourcePosition := ⟨0, 1, 1⟩

theorem texts_of_elements (source : List Char) : ∀ e ∈ elements source, e.text ≠ [] := by
  intro e member
  obtain ⟨front, back, whole⟩ := List.append_of_mem member
  obtain ⟨behind, -, some_, same, -⟩ := elements_split source front e back whole
  rw [same]
  exact (element_text behind some_).1

/-- The result without synthesis: the token elements and the end. -/
theorem scan_false (source : List Char) :
    (scan source false).tokens = walk (fun p e => e.tokenAt p) start (elements source) ++ [endOfFile source] ∧
      (scan source false).diagnostics = walk (fun p e => e.diagnosticAt p) start (elements source) := by
  obtain ⟨position, closed, tokens, diagnostics⟩ := Scanner.foldl_pass_false (elements source) { rest := source }
    (flatMap_elements source).symm (proper_of_mem source) rfl
  rw [scan_eq]
  unfold Scanner.result
  rw [position, closed, tokens, diagnostics, flatMap_elements, after_start]
  exact ⟨rfl, List.append_nil _⟩

/-- Where a token element stands. -/
theorem token_place (source : List Char) (t : Token) (member : t ∈ walk (fun p e => e.tokenAt p) start (elements source)) :
    ∃ front rest, source = front ++ rest ∧ rest ≠ [] ∧ ¬ isWhitespace (peek rest 0) = true ∧ ¬ startsComment rest = true ∧
      t = ⟨(scanToken rest).kind, String.ofList (rest.take (scanToken rest).length),
        String.ofList (scanToken rest).canonical,
        ⟨SourcePosition.after start front,
          SourcePosition.after start (front ++ rest.take (scanToken rest).length)⟩⟩ := by
  obtain ⟨before, e, back, whole, found⟩ := mem_walk _ _ _ t member
  obtain ⟨rest, split, some_, same, -⟩ := elements_split source before e back whole
  cases e with
  | token scanned text =>
      obtain ⟨plain, code, rfl, rfl⟩ := token_of_element rest scanned text same
      obtain rfl := Option.some.inj found
      exact ⟨_, rest, split, some_, plain, code, by rw [SourcePosition.after_append]⟩
  | _ => contradiction

/-- What a token of the walk says about the source. -/
theorem token_facts (source : List Char) (t : Token) (member : t ∈ walk (fun p e => e.tokenAt p) start (elements source)) :
    t.span.start.offset < t.span.stop.offset ∧ t.span.stop.offset ≤ source.length ∧ t.kind ≠ .EndOfFile ∧
      t.text.toList = slice source t.span.start.offset t.span.stop.offset ∧
      t.span.start = positionOf source t.span.start.offset ∧ t.span.stop = positionOf source t.span.stop.offset := by
  obtain ⟨front, rest, rfl, some_, -, -, rfl⟩ := token_place source t member
  obtain ⟨positive, le⟩ := scanToken_length rest some_
  have length : (rest.take (scanToken rest).length).length = (scanToken rest).length := by
    rw [List.length_take, Nat.min_eq_left le]
  have first : (SourcePosition.after start front).offset = front.length := by
    rw [SourcePosition.after_offset]
    exact Nat.zero_add _
  have second : (SourcePosition.after start (front ++ rest.take (scanToken rest).length)).offset =
      front.length + (scanToken rest).length := by
    rw [SourcePosition.after_offset, List.length_append, length]
    exact Nat.zero_add _
  have whole : front ++ rest = (front ++ rest.take (scanToken rest).length) ++ rest.drop (scanToken rest).length := by
    rw [List.append_assoc, List.take_append_drop]
  dsimp only
  rw [first, second]
  refine ⟨by omega, by rw [List.length_append]; omega, scanToken_kind rest, ?_, ?_, ?_⟩
  · rw [String.toList_ofList, slice, List.drop_left, Nat.add_sub_cancel_left]
  · rw [positionOf_append]
    exact after_start front
  · have stop := positionOf_append (front ++ rest.take (scanToken rest).length) (rest.drop (scanToken rest).length)
    calc SourcePosition.after start (front ++ rest.take (scanToken rest).length)
        = positionOf (front ++ rest.take (scanToken rest).length) (front ++ rest.take (scanToken rest).length).length :=
          after_start _
      _ = positionOf (front ++ rest) (front ++ rest.take (scanToken rest).length).length := by rw [← stop, ← whole]
      _ = positionOf (front ++ rest) (front.length + (scanToken rest).length) := by rw [List.length_append, length]

/-- The tokens of a walk come one after the other. -/
theorem tokens_ordered (position : SourcePosition) (es : List Element) :
    (walk (fun p e => e.tokenAt p) position es).Pairwise (fun t u => t.span.stop.offset ≤ u.span.start.offset) := by
  induction es generalizing position with
  | nil => exact List.Pairwise.nil
  | cons e es ih =>
      have single (found : Option Token) :
          found.toList.Pairwise (fun t u => t.span.stop.offset ≤ u.span.start.offset) := by
        cases found with
        | none => exact List.Pairwise.nil
        | some t => exact List.pairwise_singleton _ t
      apply List.pairwise_append.mpr ⟨single _, ih _, _⟩
      · intro t first u later
        have behind := offset_le_of_walk (fun p e => e.tokenAt p) (fun t => t.span.start) tokenAt_start _ es u later
        cases e with
        | token scanned text =>
            obtain rfl := Option.some.inj (Option.mem_toList.mp first)
            exact behind
        | _ => contradiction

/-- What is skipped before a token is left to the next one. -/
theorem walk_skipped (position : SourcePosition) (skipped es : List Element)
    (plain : ∀ e ∈ skipped, e.isToken = false) : walk (fun p e => e.tokenAt p) position (skipped ++ es) =
      walk (fun p e => e.tokenAt p) (SourcePosition.after position (skipped.flatMap Element.text)) es := by
  induction skipped generalizing position with
  | nil => rfl
  | cons e skipped ih =>
      rw [List.cons_append, walk, ih _ (fun e' member => plain e' (List.mem_cons_of_mem _ member)), List.flatMap_cons,
        SourcePosition.after_append]
      cases e with
      | token scanned text =>
          have wrong := plain _ List.mem_cons_self
          contradiction
      | _ => rfl

theorem skip_split (all : List Element) : ∃ skipped es, all = skipped ++ es ∧ (∀ e ∈ skipped, e.isToken = false) ∧
    ∀ e ∈ es.head?, e.isToken = true := by
  induction all with
  | nil => exact ⟨[], [], rfl, nofun, nofun⟩
  | cons e all ih =>
      by_cases token : e.isToken = true
      · exact ⟨[], e :: all, rfl, nofun, fun e' head => Option.some.inj head ▸ token⟩
      · obtain ⟨skipped, es, rfl, plain, next⟩ := ih
        exact ⟨e :: skipped, es, rfl, List.forall_mem_cons.mpr ⟨Bool.not_eq_true _ ▸ token, plain⟩, next⟩

/-- Between the tokens of what is left of a source are trivia. -/
theorem gaps_of_elements (source front rest : List Char) (whole : source = front ++ rest) :
    Gaps source front.length (walk (fun p e => e.tokenAt p) (SourcePosition.after start front) (elements rest) ++
      [endOfFile source]) := by
  induction length : rest.length using Nat.strongRecOn generalizing front rest with
  | ind n ih =>
      obtain ⟨skipped, es, split, plain, next⟩ := skip_split (elements rest)
      obtain ⟨trivia, left⟩ := trivia_of_elements skipped es rest split plain next
      have texts : rest = skipped.flatMap Element.text ++ es.flatMap Element.text := by
        rw [← List.flatMap_append, ← split, flatMap_elements]
      have moved := walk_skipped (SourcePosition.after start front) skipped es plain
      rw [← split, ← SourcePosition.after_append] at moved
      rw [moved]
      generalize skipped.flatMap Element.text = gap at trivia left texts
      have cut : slice source front.length (front.length + gap.length) = gap := by
        rw [slice, whole, texts, List.drop_left, Nat.add_sub_cancel_left, List.take_left]
      cases es with
      | nil =>
          have all : source.length = front.length + gap.length := by
            rw [whole, texts, List.length_append, List.length_append]
            rfl
          show Trivia true (slice source front.length source.length) ∧ True
          rw [all, cut]
          exact ⟨trivia, trivial⟩
      | cons e es =>
          have some_ : rest.drop gap.length ≠ [] := by
            intro empty
            rw [empty, elements_nil] at left
            contradiction
          rw [elements_eq _ some_, List.cons.injEq] at left
          obtain ⟨same, later⟩ := left
          cases e with
          | token scanned text =>
              obtain ⟨-, -, rfl, spelled⟩ := token_of_element _ scanned text same
              rw [← same] at later
              change es = elements ((rest.drop gap.length).drop text.length) at later
              have own := element_text _ some_
              rw [← same] at own
              have positive : 0 < text.length := List.length_pos_iff.mpr own.1
              have behind : rest = gap ++ (text ++ (rest.drop gap.length).drop text.length) := by
                have second : rest.drop gap.length = text ++ (rest.drop gap.length).drop text.length := own.2
                rw [← second, texts, List.drop_left]
              have shorter : ((rest.drop gap.length).drop text.length).length < n := by
                have total := congrArg List.length behind
                rw [List.length_append, List.length_append] at total
                omega
              have rest_ := ih _ shorter (front ++ gap ++ text) ((rest.drop gap.length).drop text.length)
                (by rw [whole, List.append_assoc, List.append_assoc, ← behind]) rfl
              rw [← later, SourcePosition.after_append] at rest_
              have begins : (SourcePosition.after start (front ++ gap)).offset = front.length + gap.length := by
                rw [SourcePosition.after_offset, List.length_append]
                exact Nat.zero_add _
              have ends : (SourcePosition.after (SourcePosition.after start (front ++ gap)) text).offset =
                  (front ++ gap ++ text).length := by
                rw [SourcePosition.after_offset, begins, List.length_append, List.length_append]
              show Trivia _ (slice source front.length (SourcePosition.after start (front ++ gap)).offset) ∧
                Gaps source (SourcePosition.after (SourcePosition.after start (front ++ gap)) text).offset _
              rw [begins, cut, ends]
              refine ⟨?_, rest_⟩
              have more : (walk (fun p e => e.tokenAt p)
                  (SourcePosition.after (SourcePosition.after start (front ++ gap)) text) es ++ [endOfFile source]).isEmpty =
                  false := by
                rw [List.isEmpty_eq_false_iff]
                exact List.append_ne_nil_of_right_ne_nil _ (List.cons_ne_nil _ _)
              exact more ▸ trivia
          | _ =>
              have wrong := next _ rfl
              contradiction

/-- The tokens and what stands between them are the source. -/
theorem lossless (source : List Char) : Lossless source (scan source false).tokens := by
  obtain ⟨tokens, -⟩ := scan_false source
  have facts := token_facts source
  have gaps := gaps_of_elements source [] source rfl
  rw [tokens]
  change Gaps source 0 (walk (fun p e => e.tokenAt p) start (elements source) ++ [endOfFile source]) at gaps
  have ordered := tokens_ordered start (elements source)
  generalize walk (fun p e => e.tokenAt p) start (elements source) = front at facts gaps ordered
  constructor
  · apply List.pairwise_append.mpr ⟨ordered, List.pairwise_singleton _ _, _⟩
    intro t member u last
    rw [List.mem_singleton.mp last]
    exact (facts t member).2.1
  · intro t member
    rcases List.mem_append.mp member with inside | last
    · obtain ⟨less, within, -⟩ := facts t inside
      exact ⟨by omega, within, fun _ => less⟩
    · rw [List.mem_singleton.mp last]
      exact ⟨Nat.le_refl _, Nat.le_refl _, fun other => absurd rfl other⟩
  · intro t member
    rcases List.mem_append.mp member with inside | last
    · exact (facts t inside).2.2.2.1
    · rw [List.mem_singleton.mp last]
      show [] = slice source source.length source.length
      rw [slice, Nat.sub_self, List.take_zero]
  · intro t member
    rcases List.mem_append.mp member with inside | last
    · exact (facts t inside).2.2.2.2
    · rw [List.mem_singleton.mp last]
      exact ⟨rfl, rfl⟩
  · exact gaps
  · exact ⟨front, rfl, fun t member => (facts t member).2.2.1⟩

/-! ### A token alone -/

/-- The text of a token that is not malformed has one element. -/
theorem elements_of_token (rest : List Char) (some_ : rest ≠ []) (plain : ¬ isWhitespace (peek rest 0) = true)
    (code : ¬ startsComment rest = true) (valid : (scanToken rest).kind ≠ .Invalid) :
    elements (rest.take (scanToken rest).length) =
      [.token (scanToken rest) (rest.take (scanToken rest).length)] := by
  have same := scanToken_cut rest some_ valid
  obtain ⟨positive, le⟩ := scanToken_length rest some_
  generalize count : (scanToken rest).length = n at same positive le ⊢
  have length : (rest.take n).length = n := by rw [List.length_take, Nat.min_eq_left le]
  have full : rest.take n ≠ [] := List.ne_nil_of_length_pos (by omega)
  have first : element (rest.take n) = .token (scanToken rest) (rest.take n) := by
    unfold element
    rw [peek_take rest n 0 positive, if_neg plain, same, count, List.take_take, Nat.min_self, if_neg]
    intro comment
    apply code
    unfold startsComment at comment ⊢
    rw [Bool.and_eq_true, beq_iff_eq, beq_iff_eq] at comment
    have more : 1 < (rest.take n).length := by
      apply lt_of_peek
      rw [comment.2]
      decide
    rw [peek_take rest n 0 positive, peek_take rest n 1 (by omega)] at comment
    rw [comment.1, comment.2]
    rfl
  rw [elements_eq _ full, first]
  show _ :: elements ((rest.take n).drop (rest.take n).length) = _
  rw [List.drop_length, elements_nil]

/-- A token that is not malformed can be scanned alone. -/
theorem scannedAlone (source : List Char) (t : Token) (member : t ∈ (scan source false).tokens)
    (valid : t.kind ≠ .Invalid) : ScannedAlone t := by
  obtain ⟨tokens, -⟩ := scan_false source
  rw [tokens] at member
  rcases List.mem_append.mp member with inside | last
  · obtain ⟨front, rest, -, some_, plain, code, rfl⟩ := token_place source t inside
    obtain ⟨alone, -⟩ := scan_false (rest.take (scanToken rest).length)
    rw [elements_of_token rest some_ plain code valid] at alone
    refine ⟨_, _, by rw [String.toList_ofList]; exact alone, rfl, ?_⟩
    rw [if_neg (scanToken_kind rest)]
    rfl
  · obtain rfl := List.mem_singleton.mp last
    obtain ⟨alone, -⟩ := scan_false []
    rw [elements_nil] at alone
    exact ⟨[], _, alone, rfl, rfl⟩

/-! ### Synthesis -/

/-- What is found at an element starts in the source. -/
theorem offset_lt_of_walk {α : Type} (found : SourcePosition → Element → Option α) (begin_ : α → SourcePosition)
    (own : ∀ position e x, found position e = some x → begin_ x = position) (source : List Char) (x : α)
    (member : x ∈ walk found start (elements source)) : (begin_ x).offset < source.length := by
  obtain ⟨front, e, back, whole, same⟩ := mem_walk found start (elements source) x member
  obtain ⟨behind, split, some_, -⟩ := elements_split source front e back whole
  have positive := List.length_pos_iff.mpr some_
  have total := congrArg List.length split
  rw [List.length_append] at total
  rw [own _ e x same, SourcePosition.after_offset]
  show 0 + _ < _
  omega

/-- The comments of a source that start or end a region, with their places. -/
def directives (source : List Char) : List (SourceSpan × Bool) := walk (fun p e => e.directiveAt p) start (elements source)

/-- The offset is in an excluded region; a region ends before the end of the source. -/
def excluded (source : List Char) (offset : Nat) : Bool :=
  decide (offset < source.length) && (regionAt none (directives source) offset).isSome

/-- The lexer is lossless, its tokens can be scanned alone, and synthesis drops what starts in
an excluded region and reports every directive without a partner. -/
theorem scan_lossless (source : List Char) :
    Lossless source (scan source false).tokens ∧
    (∀ t ∈ (scan source false).tokens, t.kind ≠ .Invalid → ScannedAlone t) ∧
    (scan source true).tokens =
      (scan source false).tokens.filter (fun t => !excluded source t.span.start.offset) ∧
    ∀ d, d ∈ (scan source true).diagnostics ↔
      d ∈ unbalanced (positionOf source source.length) none (directives source) ∨
        d ∈ (scan source false).diagnostics ∧ excluded source d.span.start.offset = false := by
  obtain ⟨tokens, diagnostics⟩ := scan_false source
  obtain ⟨position, kept, reported⟩ := Scanner.foldl_pass_true (elements source) { rest := source }
    (flatMap_elements source).symm (proper_of_mem source) (texts_of_elements source)
  rw [flatMap_elements] at position reported
  rw [show SourcePosition.after ⟨0, 1, 1⟩ source = _ from after_start source] at position reported
  refine ⟨lossless source, scannedAlone source, ?_, ?_⟩
  · rw [scan_eq, tokens, List.filter_append]
    show _ ++ _ = _
    rw [position, kept]
    congr 1
    · rw [List.nil_append]
      apply List.filter_congr
      intro t member
      have within := offset_lt_of_walk _ _ tokenAt_start source t member
      unfold excluded
      rw [decide_eq_true within, Bool.true_and, Option.not_isSome]
      rfl
    · have last : excluded source source.length = false := by
        unfold excluded
        rw [decide_eq_false (Nat.lt_irrefl _), Bool.false_and]
      show _ = List.filter _ [endOfFile source]
      rw [List.filter_cons_of_pos (by show (!excluded source source.length) = true; rw [last]; rfl)]
      rfl
  · intro d
    rw [scan_eq, reported d, diagnostics, or_iff_right List.not_mem_nil, or_comm]
    apply or_congr_right
    unfold outside
    rw [List.mem_filter]
    apply and_congr_right
    intro member
    have within := offset_lt_of_walk _ _ diagnosticAt_start source d member
    unfold excluded
    rw [decide_eq_true within, Bool.true_and, Option.isNone_iff_eq_none, Option.isSome_eq_false_iff,
      Option.isNone_iff_eq_none]
    rfl

end Naja.Vhdl.Lexer
