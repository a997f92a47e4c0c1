import Naja.Vhdl.LexerElements
import Mathlib.Data.List.Induction

/-! What the scanner makes of the elements of a source: tokens, diagnostics and the
directives that exclude a region, each with its place. -/

namespace Naja.Vhdl.Lexer
open Parser

theorem elements_split (rest : List Char) (front : List Element) (e : Element) (back : List Element)
    (whole : elements rest = front ++ e :: back) : ∃ behind, rest = front.flatMap Element.text ++ behind ∧ behind ≠ [] ∧
      e = element behind ∧ back = elements (behind.drop e.text.length) := by
  induction front generalizing rest with
  | nil =>
      have some_ : rest ≠ [] := by
        intro empty
        rw [empty, elements_nil] at whole
        contradiction
      rw [elements_eq rest some_, List.nil_append, List.cons.injEq] at whole
      obtain ⟨rfl, rfl⟩ := whole
      exact ⟨rest, rfl, some_, rfl, rfl⟩
  | cons first front ih =>
      have some_ : rest ≠ [] := by
        intro empty
        rw [empty, elements_nil] at whole
        contradiction
      rw [elements_eq rest some_, List.cons_append, List.cons.injEq] at whole
      obtain ⟨rfl, later⟩ := whole
      obtain ⟨behind, split, found⟩ := ih _ later
      refine ⟨behind, ?_, found⟩
      rw [List.flatMap_cons, List.append_assoc, ← split]
      exact (element_text rest some_).2

/-- The token elements of a source. -/
theorem token_of_element (rest : List Char) (scanned : Scanned) (text : List Char)
    (same : Element.token scanned text = element rest) :
    ¬ isWhitespace (peek rest 0) = true ∧ ¬ startsComment rest = true ∧ scanned = scanToken rest ∧
      text = rest.take (scanToken rest).length := by
  unfold element at same
  split at same
  · contradiction
  · next plain =>
      split at same
      · contradiction
      · next code =>
          injection same with first second
          exact ⟨plain, code, first, second⟩

/-! ### Positions -/

namespace SourcePosition

theorem after_append (position : SourcePosition) (text more : List Char) :
    after position (text ++ more) = after (after position text) more := List.foldl_append

theorem after_offset (position : SourcePosition) (text : List Char) :
    (after position text).offset = position.offset + text.length := by
  induction text generalizing position with
  | nil => rfl
  | cons c text ih =>
      have one : (advance position c).offset = position.offset + 1 := by
        unfold advance
        split <;> rfl
      show (after (advance position c) text).offset = _
      rw [ih, one, List.length_cons]
      omega

end SourcePosition

open SourcePosition in
/-- Something found at an element, for all elements from a position on. -/
def walk {α : Type} (found : SourcePosition → Element → Option α) : SourcePosition → List Element → List α
  | _, [] => []
  | position, e :: es => (found position e).toList ++ walk found (after position e.text) es

theorem mem_walk {α : Type} (found : SourcePosition → Element → Option α) (position : SourcePosition)
    (es : List Element) (x : α) (member : x ∈ walk found position es) :
    ∃ front e back, es = front ++ e :: back ∧
      found (SourcePosition.after position (front.flatMap Element.text)) e = some x := by
  induction es generalizing position with
  | nil => contradiction
  | cons e es ih =>
      rcases List.mem_append.mp member with here | later
      · exact ⟨[], e, es, rfl, Option.mem_toList.mp here⟩
      · obtain ⟨front, e', back, rfl, same⟩ := ih _ later
        refine ⟨e :: front, e', back, rfl, ?_⟩
        rw [List.flatMap_cons, SourcePosition.after_append]
        exact same

theorem offset_le_of_walk {α : Type} (found : SourcePosition → Element → Option α) (start : α → SourcePosition)
    (own : ∀ position e x, found position e = some x → start x = position) (position : SourcePosition) (es : List Element)
    (x : α) (member : x ∈ walk found position es) : position.offset ≤ (start x).offset := by
  obtain ⟨front, e, back, -, same⟩ := mem_walk found position es x member
  rw [own _ e x same, SourcePosition.after_offset]
  omega

/-! ### One element -/

namespace Element

def tokenAt (position : SourcePosition) : Element → Option Token
  | token scanned text =>
      some ⟨scanned.kind, String.ofList text, String.ofList scanned.canonical,
        ⟨position, SourcePosition.after position text⟩⟩
  | _ => none

def diagnosticAt (position : SourcePosition) : Element → Option Diagnostic
  | token scanned text => scanned.message.map (fun message => ⟨message, ⟨position, SourcePosition.after position text⟩⟩)
  | _ => none

/-- A comment that starts (`true`) or ends an excluded region. -/
def directiveAt (position : SourcePosition) : Element → Option (SourceSpan × Bool)
  | comment text => (command (text.drop 2)).map (fun off => (⟨position, SourcePosition.after position text⟩, off))
  | _ => none

/-- The text of a token is as long as the scanner says. -/
def Proper : Element → Prop
  | token scanned text => scanned.length = text.length
  | _ => True

end Element

theorem tokenAt_start (position : SourcePosition) (e : Element) (t : Token) (found : e.tokenAt position = some t) :
    t.span.start = position := by
  cases e with
  | token scanned text =>
      obtain rfl := Option.some.inj found
      rfl
  | _ => contradiction

theorem diagnosticAt_start (position : SourcePosition) (e : Element) (d : Diagnostic)
    (found : e.diagnosticAt position = some d) : d.span.start = position := by
  cases e with
  | token scanned text =>
      obtain ⟨message, -, rfl⟩ := Option.map_eq_some_iff.mp found
      rfl
  | _ => contradiction

theorem directiveAt_start (position : SourcePosition) (e : Element) (d : SourceSpan × Bool)
    (found : e.directiveAt position = some d) : d.1.start = position := by
  cases e with
  | comment text =>
      obtain ⟨off, -, rfl⟩ := Option.map_eq_some_iff.mp found
      rfl
  | _ => contradiction

theorem proper_of_mem (rest : List Char) (e : Element) (member : e ∈ elements rest) : e.Proper := by
  obtain ⟨front, back, whole⟩ := List.append_of_mem member
  obtain ⟨behind, -, some_, same, -⟩ := elements_split rest front e back whole
  cases e with
  | token scanned text =>
      obtain ⟨-, -, rfl, rfl⟩ := token_of_element behind scanned text same
      show _ = (behind.take _).length
      rw [List.length_take, Nat.min_eq_left (scanToken_length behind some_).2]
  | _ => trivial

namespace Scanner

/-- Where the scanner is after an element. -/
def behind (scanner : Scanner) (e : Element) : Scanner :=
  { scanner with rest := scanner.rest.drop e.text.length, position := SourcePosition.after scanner.position e.text }

theorem advance_eq (scanner : Scanner) (e : Element) (tail : List Char) (rest : scanner.rest = e.text ++ tail) :
    scanner.advance e.text.length = scanner.behind e := by
  unfold advance behind
  rw [rest, List.take_left]

/-- Without synthesis only tokens and their diagnostics are added. -/
theorem pass_false (scanner : Scanner) (e : Element) (tail : List Char) (rest : scanner.rest = e.text ++ tail)
    (proper : e.Proper) (open_ : scanner.excluded = false) : pass false scanner e =
      { scanner.behind e with
        tokens := scanner.tokens ++ (e.tokenAt scanner.position).toList
        diagnostics := scanner.diagnostics ++ (e.diagnosticAt scanner.position).toList } := by
  have advanced := advance_eq scanner e tail rest
  cases e with
  | blank c =>
      have moved : pass false scanner (.blank c) = scanner.behind (.blank c) := advanced
      rw [moved]
      simp [behind, Element.tokenAt, Element.diagnosticAt]
  | comment text =>
      have moved : pass false scanner (.comment text) = scanner.behind (.comment text) := advanced
      rw [moved]
      simp [behind, Element.tokenAt, Element.diagnosticAt]
  | token scanned text =>
      have length : scanned.length = (Element.token scanned text).text.length := proper
      unfold pass
      dsimp only
      rw [length, advanced]
      cases message : scanned.message with
      | none => simp [diagnose, emit, behind, open_, Element.tokenAt, Element.diagnosticAt, message, Element.text]
      | some text => simp [diagnose, emit, push, behind, open_, Element.tokenAt, Element.diagnosticAt, message, Element.text]

/-- The region that is open after a directive. -/
def openRegion (region : Option SourcePosition) (directive : SourceSpan × Bool) : Option SourcePosition :=
  match directive.2, region with
  | false, _ => none
  | true, some start => some start
  | true, none => some directive.1.start

/-- What is reported about a directive in a region, or outside of one. -/
def unbalancedAt (region : Option SourcePosition) (directive : SourceSpan × Bool) : Option Diagnostic :=
  match directive.2, region with
  | true, some _ => some ⟨"nested translate_off is unsupported", directive.1⟩
  | false, none => some ⟨"translate_on without translate_off", directive.1⟩
  | _, _ => none

/-- The region in which the scanner is. -/
def region (scanner : Scanner) : Option SourcePosition := if scanner.excluded then some scanner.exclusionStart else none

/-- With synthesis a directive changes the region, and a token in a region is dropped. -/
theorem pass_true (scanner : Scanner) (e : Element) (tail : List Char) (rest : scanner.rest = e.text ++ tail)
    (proper : e.Proper) :
    let after := pass true scanner e
    after.rest = tail ∧ after.position = SourcePosition.after scanner.position e.text ∧
      after.region = (e.directiveAt scanner.position).elim scanner.region (openRegion scanner.region) ∧
      after.tokens = scanner.tokens ++ (if scanner.region.isSome then [] else (e.tokenAt scanner.position).toList) ∧
      after.diagnostics = scanner.diagnostics ++
        (if scanner.region.isSome then [] else (e.diagnosticAt scanner.position).toList) ++
        ((e.directiveAt scanner.position).bind (unbalancedAt scanner.region)).toList := by
  have advanced := advance_eq scanner e tail rest
  have left : scanner.rest.drop e.text.length = tail := by rw [rest, List.drop_left]
  cases e with
  | blank c =>
      have moved : pass true scanner (.blank c) = scanner.behind (.blank c) := advanced
      rw [moved]
      simp [behind, left, region, Element.tokenAt, Element.diagnosticAt, Element.directiveAt]
  | comment text =>
      have moved : pass true scanner (.comment text) =
          (scanner.behind (.comment text)).pragma scanner.position (text.drop 2) := by
        rw [← advanced]
        rfl
      rw [moved]
      unfold pragma
      cases found : command (text.drop 2) with
      | none => simp [behind, left, region, Element.tokenAt, Element.diagnosticAt, Element.directiveAt, found]
      | some off =>
          have left : scanner.rest.drop text.length = tail := left
          cases off <;> cases inside : scanner.excluded <;>
            simp [behind, push, left, region, openRegion, unbalancedAt, Element.tokenAt, Element.diagnosticAt,
              Element.directiveAt, found, inside, Element.text]
  | token scanned text =>
      have length : scanned.length = (Element.token scanned text).text.length := proper
      unfold pass
      dsimp only
      rw [length, advanced]
      have left : scanner.rest.drop text.length = tail := left
      cases message : scanned.message <;> cases inside : scanner.excluded <;>
        simp [diagnose, emit, push, behind, left, region, Element.tokenAt, Element.diagnosticAt, Element.directiveAt,
          message, inside, Element.text]

/-- The whole pass without synthesis. -/
theorem foldl_pass_false (es : List Element) (scanner : Scanner) (rest : scanner.rest = es.flatMap Element.text)
    (proper : ∀ e ∈ es, e.Proper) (open_ : scanner.excluded = false) :
    let after := es.foldl (pass false) scanner
    after.position = SourcePosition.after scanner.position (es.flatMap Element.text) ∧ after.excluded = false ∧
      after.tokens = scanner.tokens ++ walk (fun p e => e.tokenAt p) scanner.position es ∧
      after.diagnostics = scanner.diagnostics ++ walk (fun p e => e.diagnosticAt p) scanner.position es := by
  induction es generalizing scanner with
  | nil => exact ⟨rfl, open_, (List.append_nil _).symm, (List.append_nil _).symm⟩
  | cons e es ih =>
      rw [List.flatMap_cons] at rest
      have step := pass_false scanner e _ rest (proper e List.mem_cons_self) open_
      have left : (pass false scanner e).rest = es.flatMap Element.text := by
        rw [step]
        show scanner.rest.drop _ = _
        rw [rest, List.drop_left]
      obtain ⟨position, closed, tokens, diagnostics⟩ := ih (pass false scanner e) left
        (fun e' member => proper e' (List.mem_cons_of_mem _ member)) (by rw [step]; exact open_)
      have moved : (pass false scanner e).position = SourcePosition.after scanner.position e.text := by
        rw [step]
        rfl
      have own : (pass false scanner e).tokens = scanner.tokens ++ (e.tokenAt scanner.position).toList := by rw [step]
      have reported : (pass false scanner e).diagnostics =
          scanner.diagnostics ++ (e.diagnosticAt scanner.position).toList := by rw [step]
      rw [moved] at position tokens diagnostics
      rw [own] at tokens
      rw [reported] at diagnostics
      dsimp only
      rw [List.foldl_cons, position, closed, tokens, diagnostics, List.flatMap_cons, SourcePosition.after_append]
      exact ⟨rfl, rfl, List.append_assoc _ _ _, List.append_assoc _ _ _⟩

end Scanner

/-- The region that is open at an offset, from the directives before it. -/
def regionAt (region : Option SourcePosition) (directives : List (SourceSpan × Bool)) (offset : Nat) :
    Option SourcePosition :=
  (directives.filter (fun directive => directive.1.start.offset < offset)).foldl Scanner.openRegion region

/-- What is reported about the directives themselves; a region that is still open at the end
is reported from its start to there. -/
def unbalanced (stop : SourcePosition) : Option SourcePosition → List (SourceSpan × Bool) → List Diagnostic
  | none, [] => []
  | some start, [] => [⟨"unterminated translate_off region", ⟨start, stop⟩⟩]
  | region, directive :: rest =>
      (Scanner.unbalancedAt region directive).toList ++ unbalanced stop (Scanner.openRegion region directive) rest

/-- A directive counts for what comes behind it. -/
theorem regionAt_append (region : Option SourcePosition) (first rest : List (SourceSpan × Bool)) (offset : Nat)
    (before : ∀ directive ∈ first, directive.1.start.offset < offset) :
    regionAt region (first ++ rest) offset = regionAt (first.foldl Scanner.openRegion region) rest offset := by
  unfold regionAt
  rw [List.filter_append, List.foldl_append, List.filter_eq_self.mpr (by simpa using before)]

theorem regionAt_of_behind (region : Option SourcePosition) (directives : List (SourceSpan × Bool)) (offset : Nat)
    (behind : ∀ directive ∈ directives, offset ≤ directive.1.start.offset) :
    regionAt region directives offset = region := by
  unfold regionAt
  rw [List.filter_eq_nil_iff.mpr (by simpa using behind)]
  rfl

theorem unbalanced_cons (stop : SourcePosition) (region : Option SourcePosition) (directive : Option (SourceSpan × Bool))
    (rest : List (SourceSpan × Bool)) : unbalanced stop region (directive.toList ++ rest) =
      (directive.bind (Scanner.unbalancedAt region)).toList ++
        unbalanced stop (directive.elim region (Scanner.openRegion region)) rest := by
  cases directive with
  | none => rfl
  | some directive => cases region <;> rfl

/-- What starts in a region is dropped. -/
def outside {α : Type} (start : α → SourcePosition) (region : Option SourcePosition)
    (directives : List (SourceSpan × Bool)) (found : List α) : List α :=
  found.filter (fun x => (regionAt region directives (start x).offset).isNone)

/-- One element more: what is found there, and what is found behind it. -/
theorem outside_cons {α : Type} (found : SourcePosition → Element → Option α) (start : α → SourcePosition)
    (own : ∀ position e x, found position e = some x → start x = position) (region : Option SourcePosition)
    (position : SourcePosition) (e : Element) (es : List Element) (some_ : e.text ≠ []) :
    outside start region (walk (fun p e => e.directiveAt p) position (e :: es)) (walk found position (e :: es)) =
      (if region.isSome then [] else (found position e).toList) ++
        outside start ((e.directiveAt position).elim region (Scanner.openRegion region))
          (walk (fun p e => e.directiveAt p) (SourcePosition.after position e.text) es)
          (walk found (SourcePosition.after position e.text) es) := by
  have moved : position.offset < (SourcePosition.after position e.text).offset := by
    have positive := List.length_pos_iff.mpr some_
    rw [SourcePosition.after_offset]
    omega
  have later (x : SourceSpan × Bool)
      (member : x ∈ walk (fun p e => e.directiveAt p) (SourcePosition.after position e.text) es) :
      (SourcePosition.after position e.text).offset ≤ x.1.start.offset :=
    offset_le_of_walk (fun p e => e.directiveAt p) (fun x => x.1.start) directiveAt_start _ es x member
  have here (x : SourceSpan × Bool) (member : x ∈ (e.directiveAt position).toList) : x.1.start = position :=
    directiveAt_start position e x (Option.mem_toList.mp member)
  unfold outside
  rw [walk, walk, List.filter_append]
  congr 1
  · have region_ (x : α) (member : x ∈ (found position e).toList) : regionAt region
        ((e.directiveAt position).toList ++ walk (fun p e => e.directiveAt p) (SourcePosition.after position e.text) es)
        (start x).offset = region := by
      apply regionAt_of_behind
      intro directive inside
      rw [own position e x (Option.mem_toList.mp member)]
      rcases List.mem_append.mp inside with first | second
      · rw [here directive first]
      · have le := later directive second
        omega
    have same := List.filter_congr (l := (found position e).toList) (q := fun _ => region.isNone)
      (fun x member => congrArg Option.isNone (region_ x member))
    rw [same]
    cases region with
    | none => exact List.filter_eq_self.mpr (fun _ _ => rfl)
    | some region => exact List.filter_eq_nil_iff.mpr (fun _ _ => Bool.false_ne_true)
  · apply List.filter_congr
    intro x member
    have behind := offset_le_of_walk found start own _ es x member
    rw [regionAt_append region _ _ _ (fun directive inside => by rw [here directive inside]; omega)]
    cases e.directiveAt position <;> rfl

namespace Scanner

/-- The whole pass with synthesis: tokens and diagnostics in an excluded region are dropped, and
what is reported about the directives comes on top. -/
theorem foldl_pass_true (es : List Element) (scanner : Scanner) (rest : scanner.rest = es.flatMap Element.text)
    (proper : ∀ e ∈ es, e.Proper) (texts : ∀ e ∈ es, e.text ≠ []) :
    let after := es.foldl (pass true) scanner
    let directives := walk (fun p e => e.directiveAt p) scanner.position es
    after.position = SourcePosition.after scanner.position (es.flatMap Element.text) ∧
      after.tokens = scanner.tokens ++
        outside (fun t => t.span.start) scanner.region directives (walk (fun p e => e.tokenAt p) scanner.position es) ∧
      ∀ d, d ∈ after.result.diagnostics ↔ d ∈ scanner.diagnostics ∨
        d ∈ outside (fun d => d.span.start) scanner.region directives
          (walk (fun p e => e.diagnosticAt p) scanner.position es) ∨
        d ∈ unbalanced (SourcePosition.after scanner.position (es.flatMap Element.text)) scanner.region directives := by
  induction es generalizing scanner with
  | nil =>
      refine ⟨rfl, (List.append_nil _).symm, ?_⟩
      intro d
      show d ∈ scanner.diagnostics ++ _ ↔ d ∈ scanner.diagnostics ∨ d ∈ [] ∨ d ∈ unbalanced scanner.position scanner.region []
      rw [List.mem_append]
      unfold region
      cases inside : scanner.excluded <;> simp [unbalanced, inside]
  | cons e es ih =>
      rw [List.flatMap_cons] at rest
      obtain ⟨left, moved, region, own, reported⟩ := pass_true scanner e _ rest (proper e List.mem_cons_self)
      obtain ⟨position, tokens, diagnostics⟩ := ih (pass true scanner e) left
        (fun e' member => proper e' (List.mem_cons_of_mem _ member))
        (fun e' member => texts e' (List.mem_cons_of_mem _ member))
      rw [moved] at position
      rw [moved, region] at tokens diagnostics
      rw [own] at tokens
      rw [reported] at diagnostics
      have some_ := texts e List.mem_cons_self
      dsimp only
      rw [List.foldl_cons]
      refine ⟨by rw [position, List.flatMap_cons, SourcePosition.after_append], ?_, ?_⟩
      · rw [tokens, outside_cons _ _ tokenAt_start scanner.region scanner.position e es some_, List.append_assoc]
      · intro d
        rw [diagnostics d, outside_cons _ _ diagnosticAt_start scanner.region scanner.position e es some_,
          List.flatMap_cons, SourcePosition.after_append, walk, unbalanced_cons]
        simp only [List.mem_append]
        tauto

end Scanner
end Naja.Vhdl.Lexer
