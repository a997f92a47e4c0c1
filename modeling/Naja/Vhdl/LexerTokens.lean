import Naja.Vhdl.Lexer
import Mathlib.Data.List.TakeWhile

/-! A token that is not malformed can be cut out of its source: scanning its text alone
gives it again. -/

namespace Naja.Vhdl.Lexer
open Parser

/-! ### Cutting a source -/

theorem peek_take (rest : List Char) (n k : Nat) (before : k < n) : peek (rest.take n) k = peek rest k := by
  unfold peek
  rw [List.getD_eq_getElem?_getD, List.getD_eq_getElem?_getD, List.getElem?_take_of_lt before]

theorem peek_behind (rest : List Char) (k : Nat) (behind : rest.length ≤ k) : peek rest k = nul := by
  unfold peek
  rw [List.getD_eq_getElem?_getD, List.getElem?_eq_none behind]
  rfl

theorem peek_take_self (rest : List Char) (n : Nat) : peek (rest.take n) n = nul :=
  peek_behind _ n (List.length_take_le n rest)

theorem lt_of_peek (rest : List Char) (k : Nat) (some_ : peek rest k ≠ nul) : k < rest.length := by
  by_contra behind
  exact some_ (peek_behind rest k (by omega))

theorem lt_of_digit (rest : List Char) (k : Nat) (digit : isDigit (peek rest k) = true) : k < rest.length := by
  apply lt_of_peek
  intro zero
  rw [zero] at digit
  contradiction

/-- A run of bytes is the same in a cut that contains it. -/
theorem takeWhile_cut (p : Char → Bool) (rest : List Char) (start stop : Nat)
    (inside : start + ((rest.drop start).takeWhile p).length ≤ stop) :
    ((rest.take stop).drop start).takeWhile p = (rest.drop start).takeWhile p := by
  rw [List.drop_take, ← List.take_takeWhile, List.take_of_length_le (by omega)]

theorem slice_cut (rest : List Char) (start count stop : Nat) (inside : start + count ≤ stop) :
    ((rest.take stop).drop start).take count = (rest.drop start).take count := by
  rw [List.drop_take, List.take_take, Nat.min_eq_left (by omega)]

theorem digits_cut (rest : List Char) (start stop : Nat) (inside : start + digits (rest.drop start) ≤ stop) :
    digits ((rest.take stop).drop start) = digits (rest.drop start) := by
  unfold digits
  rw [takeWhile_cut _ rest start stop inside]

theorem takeWhile_length_le (p : Char → Bool) (rest : List Char) (start : Nat) (le : start ≤ rest.length) :
    start + ((rest.drop start).takeWhile p).length ≤ rest.length := by
  have prefix_ := (List.takeWhile_prefix p (l := rest.drop start)).length_le
  rw [List.length_drop] at prefix_
  omega

theorem digits_pos (rest : List Char) (digit : isDigit (peek rest 0) = true) : 0 < digits rest := by
  have some_ := lt_of_digit rest 0 digit
  cases rest with
  | nil => contradiction
  | cons c rest =>
      have here : isDigit c = true := digit
      unfold digits
      rw [List.takeWhile_cons_of_pos (by rw [here]; rfl), List.length_cons]
      omega

theorem peek_drop (rest : List Char) (n k : Nat) : peek (rest.drop n) k = peek rest (n + k) := by
  unfold peek
  rw [List.getD_eq_getElem?_getD, List.getD_eq_getElem?_getD, List.getElem?_drop]

/-! ### Numbers -/

/-- An exponent that is accepted ends in the source and is the same without what follows. -/
theorem exponent_cut (missing : String) (rest : List Char) (n m : Nat) (accepted : exponent missing rest n = (m, none)) :
    n ≤ m ∧ exponent missing (rest.take m) n = (m, none) := by
  unfold exponent at accepted ⊢
  by_cases marked : (peek rest n == 'e' || peek rest n == 'E') = true
  · rw [if_pos marked] at accepted
    generalize begin : (if sign (peek rest (n + 1)) = true then n + 2 else n + 1) = start at accepted
    have after : n < start := by
      rw [← begin]
      split <;> omega
    by_cases digit : isDigit (peek rest start) = true
    · dsimp only at accepted
      rw [if_neg (by rw [digit]; decide)] at accepted
      by_cases valid : validSeparators isDigit ((rest.drop start).take (start + digits (rest.drop start) - start)) = true
      · rw [if_pos valid, Prod.mk.injEq] at accepted
        have positive := digits_pos (rest.drop start) (by rw [peek_drop]; exact digit)
        have stop := accepted.1
        have within : start + digits (rest.drop start) ≤ m := by omega
        refine ⟨by omega, ?_⟩
        have second : (if sign (peek (rest.take m) (n + 1)) = true then n + 2 else n + 1) = start := by
          rw [peek_take rest m (n + 1) (by omega), begin]
        dsimp only
        rw [peek_take rest m n (by omega), if_pos marked, second, peek_take rest m start (by omega),
          if_neg (by rw [digit]; decide), digits_cut rest start m within, slice_cut rest start _ m (by omega), if_pos valid,
          stop]
      · rw [if_neg valid] at accepted
        simp at accepted
    · dsimp only at accepted
      rw [if_pos (by simpa using digit)] at accepted
      simp at accepted
  · rw [if_neg marked, Prod.mk.injEq] at accepted
    obtain ⟨rfl, -⟩ := accepted
    refine ⟨Nat.le_refl n, ?_⟩
    rw [peek_take_self]
    rfl

theorem exponent_le (missing : String) (rest : List Char) (n : Nat) (le : n ≤ rest.length) :
    n ≤ (exponent missing rest n).1 ∧ (exponent missing rest n).1 ≤ rest.length := by
  unfold exponent
  by_cases marked : (peek rest n == 'e' || peek rest n == 'E') = true
  · have more : n < rest.length := by
      apply lt_of_peek
      intro zero
      rw [zero] at marked
      contradiction
    rw [if_pos marked]
    generalize begin : (if sign (peek rest (n + 1)) = true then n + 2 else n + 1) = start
    have bounds : n < start ∧ start ≤ rest.length := by
      rw [← begin]
      split
      · next signed =>
          have further : n + 1 < rest.length := by
            apply lt_of_peek
            intro zero
            rw [zero] at signed
            contradiction
          omega
      · omega
    have inside := takeWhile_length_le (fun c => isDigit c || c == '_') rest start bounds.2
    dsimp only
    split
    · exact ⟨by omega, bounds.2⟩
    · split
      · exact ⟨by omega, inside⟩
      · exact ⟨by omega, inside⟩
  · rw [if_neg marked]
    exact ⟨Nat.le_refl n, le⟩

theorem literal_length (real : Bool) (end_ : Nat × Option String) : (literal real end_).length = end_.1 := by
  obtain ⟨n, message⟩ := end_
  cases message <;> rfl

theorem literal_valid (real : Bool) (end_ : Nat × Option String) (valid : (literal real end_).kind ≠ .Invalid) :
    end_ = ((literal real end_).length, none) := by
  obtain ⟨n, message⟩ := end_
  cases message with
  | none => rfl
  | some message => exact absurd rfl valid

theorem scanBased_cut (rest : List Char) (n : Nat) (valid : (scanBased rest n).kind ≠ .Invalid) :
    n < (scanBased rest n).length ∧ scanBased (rest.take (scanBased rest n).length) n = scanBased rest n := by
  unfold scanBased at valid ⊢
  dsimp only at valid ⊢
  generalize inside : (rest.drop (n + 1)).takeWhile (fun c => c != '#') = inner at valid ⊢
  by_cases closed : (peek rest (n + 1 + inner.length) != '#') = true
  · rw [if_pos closed] at valid
    exact absurd rfl valid
  · rw [if_neg closed] at valid ⊢
    by_cases separated : (!validSeparators isAlphaNumeric inner) = true
    · rw [if_pos separated] at valid
      exact absurd rfl valid
    · rw [if_neg separated] at valid ⊢
      have accepted := literal_valid _ _ valid
      generalize (literal _ (exponent "based literal exponent requires at least one digit" rest _)).length = stop
        at accepted
      obtain ⟨le, same⟩ := exponent_cut _ rest _ stop accepted
      rw [accepted]
      refine ⟨?_, ?_⟩
      · show n < stop
        omega
      · show _ = literal _ (stop, none)
        rw [takeWhile_cut _ rest (n + 1) stop (by rw [inside]; omega), inside,
          peek_take rest stop _ (by omega), if_neg closed, if_neg separated, same]

theorem scanDecimal_cut (rest : List Char) (n : Nat) (valid : (scanDecimal rest n).kind ≠ .Invalid) :
    n ≤ (scanDecimal rest n).length ∧ scanDecimal (rest.take (scanDecimal rest n).length) n = scanDecimal rest n := by
  unfold scanDecimal at valid ⊢
  dsimp only at valid ⊢
  by_cases fraction : (peek rest n == '.' && isDigit (peek rest (n + 1))) = true
  · rw [if_pos fraction] at valid ⊢
    by_cases separated : validSeparators isDigit
        ((rest.drop (n + 1)).take (n + 1 + digits (rest.drop (n + 1)) - (n + 1))) = true
    · rw [if_pos separated] at valid ⊢
      have accepted := literal_valid _ _ valid
      generalize (literal _ (exponent "exponent requires at least one digit" rest _)).length = stop at accepted
      obtain ⟨le, same⟩ := exponent_cut _ rest _ stop accepted
      have positive := digits_pos (rest.drop (n + 1)) (by rw [peek_drop]; exact (Bool.and_eq_true _ _ ▸ fraction).2)
      rw [accepted]
      refine ⟨by omega, ?_⟩
      rw [peek_take rest stop n (by omega), peek_take rest stop (n + 1) (by omega), if_pos fraction,
        digits_cut rest (n + 1) stop (by omega), slice_cut rest (n + 1) _ stop (by omega), if_pos separated, same]
    · rw [if_neg separated] at valid
      exact absurd rfl valid
  · rw [if_neg fraction] at valid ⊢
    have accepted := literal_valid _ _ valid
    generalize (literal _ (exponent "exponent requires at least one digit" rest _)).length = stop at accepted
    obtain ⟨le, same⟩ := exponent_cut _ rest _ stop accepted
    rw [accepted]
    refine ⟨le, ?_⟩
    have none_ : ¬ (peek (rest.take stop) n == '.' && isDigit (peek (rest.take stop) (n + 1))) = true := by
      intro found
      apply fraction
      rw [Bool.and_eq_true] at found
      have more := lt_of_digit _ _ found.2
      rw [List.length_take] at more
      rw [peek_take rest stop n (by omega), peek_take rest stop (n + 1) (by omega)] at found
      rw [found.1, found.2]
      rfl
    rw [if_neg none_, same]

theorem scanNumber_cut (rest : List Char) (valid : (scanNumber rest).kind ≠ .Invalid) :
    scanNumber (rest.take (scanNumber rest).length) = scanNumber rest := by
  unfold scanNumber at valid ⊢
  dsimp only at valid ⊢
  generalize count : digits rest = n at valid ⊢
  by_cases separated : (!validSeparators isDigit (rest.take n)) = true
  · rw [if_pos separated] at valid
    exact absurd rfl valid
  · rw [if_neg separated] at valid ⊢
    have cut (stop : Nat) (le : n ≤ stop) : digits (rest.take stop) = n ∧ (rest.take stop).take n = rest.take n := by
      have same := digits_cut rest 0 stop (by rw [List.drop_zero]; omega)
      rw [List.drop_zero, List.drop_zero, count] at same
      exact ⟨same, by rw [List.take_take, Nat.min_eq_left le]⟩
    by_cases based : (peek rest n == '#') = true
    · rw [if_pos based] at valid ⊢
      obtain ⟨less, same⟩ := scanBased_cut rest n valid
      generalize (scanBased rest n).length = stop at less same
      obtain ⟨first, second⟩ := cut stop (by omega)
      rw [first, second, if_neg separated, peek_take rest stop n less, if_pos based, same]
    · rw [if_neg based] at valid ⊢
      obtain ⟨le, same⟩ := scanDecimal_cut rest n valid
      generalize (scanDecimal rest n).length = stop at le same
      obtain ⟨first, second⟩ := cut stop le
      have plain : ¬ (peek (rest.take stop) n == '#') = true := by
        by_cases inside : n < stop
        · rw [peek_take rest stop n inside]
          exact based
        · obtain rfl : n = stop := by omega
          rw [peek_take_self]
          decide
      rw [first, second, if_neg separated, if_neg plain, same]

/-! ### The other tokens -/

theorem scanIdentifier_cut (rest : List Char) :
    scanIdentifier (rest.take (scanIdentifier rest).length) = scanIdentifier rest := by
  have length : (scanIdentifier rest).length = (rest.takeWhile inIdentifier).length := by
    unfold scanIdentifier
    dsimp only
    split <;> rfl
  have same := takeWhile_cut inIdentifier rest 0 (scanIdentifier rest).length (by rw [length, List.drop_zero]; omega)
  rw [List.drop_zero, List.drop_zero] at same
  generalize (scanIdentifier rest).length = stop at same
  unfold scanIdentifier
  rw [same]

section Closing
variable (quote : Char)

theorem closing_other (c : Char) (rest : List Char) (other : c ≠ quote) :
    closing quote (c :: rest) = (closing quote rest).map (· + 1) := by
  rw [closing.eq_def]
  exact if_pos other

theorem closing_twice (rest : List Char) :
    closing quote (quote :: quote :: rest) = (closing quote rest).map (· + 2) := by
  rw [closing.eq_def]
  dsimp only
  rw [if_neg (fun other => other rfl), if_pos rfl]

theorem closing_once (d : Char) (rest : List Char) (other : d ≠ quote) : closing quote (quote :: d :: rest) = some 1 := by
  rw [closing.eq_def]
  dsimp only
  rw [if_neg (fun other => other rfl), if_neg other]

theorem closing_last : closing quote [quote] = some 1 := by
  rw [closing.eq_def]
  dsimp only
  rw [if_neg (fun other => other rfl)]

theorem closing_spec (rest : List Char) (n : Nat) (closed : closing quote rest = some n) :
    0 < n ∧ n ≤ rest.length ∧ closing quote (rest.take n) = some n := by
  induction rest using closing.induct quote generalizing n with
  | case1 => contradiction
  | case2 c rest other ih =>
      rw [closing_other quote c rest other, Option.map_eq_some_iff] at closed
      obtain ⟨m, found, rfl⟩ := closed
      obtain ⟨positive, le, same⟩ := ih m found
      refine ⟨by omega, by rw [List.length_cons]; omega, ?_⟩
      rw [List.take_succ_cons, closing_other quote c _ other, same]
      rfl
  | case3 c here rest ih =>
      obtain rfl := not_not.mp here
      rw [closing_twice, Option.map_eq_some_iff] at closed
      obtain ⟨m, found, rfl⟩ := closed
      obtain ⟨positive, le, same⟩ := ih m found
      refine ⟨by omega, by rw [List.length_cons, List.length_cons]; omega, ?_⟩
      rw [List.take_succ_cons, List.take_succ_cons, closing_twice, same]
      rfl
  | case4 c here d rest once =>
      obtain rfl := not_not.mp here
      rw [closing_once c d rest once, Option.some.injEq] at closed
      subst closed
      exact ⟨Nat.one_pos, by rw [List.length_cons, List.length_cons]; omega, closing_last c⟩
  | case5 c here =>
      obtain rfl := not_not.mp here
      rw [closing_last, Option.some.injEq] at closed
      subst closed
      exact ⟨Nat.one_pos, Nat.le_refl 1, closing_last c⟩

end Closing

/-- A token in quotes. -/
theorem quoted_cut (quote c : Char) (rest : List Char) (n : Nat) (closed : closing quote ((c :: rest).drop 1) = some n) :
    closing quote (((c :: rest).take (1 + n)).drop 1) = some n := by
  obtain ⟨-, -, same⟩ := closing_spec quote rest n closed
  rw [Nat.add_comm 1 n, List.take_succ_cons]
  exact same

theorem scanExtendedIdentifier_cut (c : Char) (rest : List Char)
    (valid : (scanExtendedIdentifier (c :: rest)).kind ≠ .Invalid) :
    scanExtendedIdentifier ((c :: rest).take (scanExtendedIdentifier (c :: rest)).length) =
      scanExtendedIdentifier (c :: rest) := by
  unfold scanExtendedIdentifier at valid ⊢
  cases closed : closing '\\' ((c :: rest).drop 1) with
  | none =>
      rw [closed] at valid
      exact absurd rfl valid
  | some n =>
      dsimp only
      rw [quoted_cut '\\' c rest n closed]

theorem scanString_cut (c : Char) (rest : List Char) (valid : (scanString (c :: rest)).kind ≠ .Invalid) :
    scanString ((c :: rest).take (scanString (c :: rest)).length) = scanString (c :: rest) := by
  unfold scanString at valid ⊢
  cases closed : closing '"' ((c :: rest).drop 1) with
  | none =>
      rw [closed] at valid
      exact absurd rfl valid
  | some n =>
      dsimp only
      rw [quoted_cut '"' c rest n closed]

theorem characterLength_cut (rest : List Char) :
    characterLength (rest.take (characterLength rest)) = characterLength rest := by
  by_cases four : (rest.take 3 == [tick, tick, tick] && peek rest 3 == tick) = true
  · have length : characterLength rest = 4 := if_pos four
    rw [length]
    apply if_pos
    rw [List.take_take, peek_take rest 4 3 (by omega)]
    exact four
  · have length : characterLength rest = 3 := if_neg four
    rw [length]
    apply if_neg
    rw [peek_take_self, show (nul == tick) = false from rfl, Bool.and_false]
    exact Bool.false_ne_true

/-- The third byte closes a character literal, and it closes the same literal alone. -/
theorem isCharacterLiteral_cut (rest : List Char) (literal : isCharacterLiteral rest = true) :
    isCharacterLiteral (rest.take (characterLength rest)) = true := by
  have three : 3 ≤ characterLength rest := by
    unfold characterLength
    split <;> omega
  unfold isCharacterLiteral at literal ⊢
  rw [peek_take rest _ 1 (by omega), peek_take rest _ 2 (by omega), Bool.or_eq_true]
  right
  rw [Bool.or_eq_true] at literal
  rcases literal with ticks | plain
  · rw [Bool.and_eq_true, Bool.and_eq_true, beq_iff_eq, beq_iff_eq] at ticks
    rw [ticks.1.1, ticks.1.2]
    decide
  · exact plain

theorem length_compound (candidate : List Char) (member : compound.contains candidate = true) : candidate.length = 2 := by
  have all : ∀ candidate ∈ compound, candidate.length = 2 := by decide
  exact all candidate (List.contains_iff_mem.mp member)

theorem candidate_cons_cons (c d : Char) (rest : List Char) : candidate (c :: d :: rest) = [c, d] :=
  if_pos (by rw [List.length_cons, List.length_cons]; omega)

theorem symbolLength_cut (c : Char) (rest : List Char) :
    symbolLength ((c :: rest).take (symbolLength (c :: rest))) = symbolLength (c :: rest) := by
  have single : symbolLength [c] = 1 := if_neg (fun member => nomatch length_compound [c] member)
  cases rest with
  | nil =>
      rw [single]
      exact single
  | cons d rest =>
      by_cases both : compound.contains [c, d] = true
      · have two (rest : List Char) : symbolLength (c :: d :: rest) = 2 := by
          unfold symbolLength
          rw [candidate_cons_cons, if_pos both]
        rw [two rest]
        exact two []
      · have one : symbolLength (c :: d :: rest) = 1 := by
          unfold symbolLength
          rw [candidate_cons_cons, if_neg both]
        rw [one]
        exact single

theorem symbolLength_le (rest : List Char) (some_ : rest ≠ []) :
    0 < symbolLength rest ∧ symbolLength rest ≤ rest.length := by
  have positive := List.length_pos_iff.mpr some_
  unfold symbolLength
  by_cases both : compound.contains (candidate rest) = true
  · have two := length_compound _ both
    rw [if_pos both]
    refine ⟨by omega, ?_⟩
    by_contra single
    rw [candidate, if_neg (by omega)] at two
    exact absurd two (by show ¬ 1 = 2; decide)
  · rw [if_neg both]
    omega

/-- A tick that starts no character literal is a symbol of one byte. -/
theorem tick_symbol (rest : List Char) : (scanSymbol (tick :: rest)).length = 1 := by
  have known : punctuation.contains (peek (tick :: rest) 0) = true := by
    show punctuation.contains tick = true
    decide
  unfold scanSymbol
  rw [if_pos known]
  apply if_neg
  intro member
  have heads : ∀ candidate ∈ compound, candidate.head? ≠ some tick := by decide
  apply heads _ (List.contains_iff_mem.mp member)
  unfold candidate
  split <;> rfl

theorem scanSymbol_cut (c : Char) (rest : List Char) (valid : (scanSymbol (c :: rest)).kind ≠ .Invalid) :
    scanSymbol ((c :: rest).take (scanSymbol (c :: rest)).length) = scanSymbol (c :: rest) := by
  by_cases known : punctuation.contains (peek (c :: rest) 0) = true
  · have form : scanSymbol (c :: rest) = { length := symbolLength (c :: rest), kind := .Symbol } := if_pos known
    rw [form]
    dsimp only
    unfold scanSymbol
    rw [peek_take _ _ 0 (symbolLength_le (c :: rest) (List.cons_ne_nil c rest)).1, if_pos known, symbolLength_cut]
  · unfold scanSymbol at valid
    rw [if_neg known] at valid
    exact absurd rfl valid

/-! ### Any token -/

theorem scanNumber_length (rest : List Char) (digit : isDigit (peek rest 0) = true) :
    0 < (scanNumber rest).length ∧ (scanNumber rest).length ≤ rest.length := by
  have positive := digits_pos rest digit
  have inside := takeWhile_length_le (fun c => isDigit c || c == '_') rest 0 (Nat.zero_le _)
  rw [List.drop_zero, Nat.zero_add] at inside
  have le : digits rest ≤ rest.length := inside
  unfold scanNumber
  dsimp only
  split
  · exact ⟨positive, le⟩
  · split
    · next based =>
        have more : digits rest < rest.length := by
          apply lt_of_peek
          intro zero
          rw [zero] at based
          contradiction
        have inner := takeWhile_length_le (fun c => c != '#') rest (digits rest + 1) more
        unfold scanBased
        dsimp only
        split
        · exact ⟨Nat.lt_of_lt_of_le positive (by show _ ≤ digits rest + 1 + _; omega), inner⟩
        · next closed =>
            have further : digits rest + 1 + ((rest.drop (digits rest + 1)).takeWhile (fun c => c != '#')).length <
                rest.length := by
              apply lt_of_peek
              intro zero
              rw [zero] at closed
              exact closed rfl
            split
            · exact ⟨Nat.succ_pos _, further⟩
            · rw [literal_length]
              have bounds := exponent_le "based literal exponent requires at least one digit" rest _ further
              exact ⟨Nat.lt_of_lt_of_le (Nat.succ_pos _) bounds.1, bounds.2⟩
    · unfold scanDecimal
      dsimp only
      split
      · next fraction =>
          rw [Bool.and_eq_true] at fraction
          have more := lt_of_digit _ _ fraction.2
          have inner := takeWhile_length_le (fun c => isDigit c || c == '_') rest (digits rest + 1) (by omega)
          split
          · rw [literal_length]
            have bounds := exponent_le "exponent requires at least one digit" rest _ inner
            have first : 0 < digits rest + 1 + digits (rest.drop (digits rest + 1)) := by omega
            exact ⟨Nat.lt_of_lt_of_le first bounds.1, bounds.2⟩
          · exact ⟨Nat.lt_of_lt_of_le positive (by show _ ≤ digits rest + 1 + _; omega), inner⟩
      · rw [literal_length]
        have bounds := exponent_le "exponent requires at least one digit" rest (digits rest) le
        omega

theorem quoted_length (quote c : Char) (rest : List Char) (n : Nat) (closed : closing quote ((c :: rest).drop 1) = some n) :
    1 + n ≤ (c :: rest).length := by
  obtain ⟨-, le, -⟩ := closing_spec quote rest n closed
  rw [List.length_cons]
  omega

/-- A token has a byte and ends in the source. -/
theorem scanToken_length (rest : List Char) (some_ : rest ≠ []) :
    0 < (scanToken rest).length ∧ (scanToken rest).length ≤ rest.length := by
  have positive := List.length_pos_iff.mpr some_
  obtain ⟨c, tail, rfl⟩ := List.exists_cons_of_ne_nil some_
  unfold scanToken
  dsimp only
  split
  · next alpha =>
      have length : (scanIdentifier (c :: tail)).length = ((c :: tail).takeWhile inIdentifier).length := by
        unfold scanIdentifier
        dsimp only
        split <;> rfl
      have inside : inIdentifier c = true := by
        unfold inIdentifier isAlphaNumeric
        rw [show isAlpha c = true from alpha]
        rfl
      have le := (List.takeWhile_prefix inIdentifier (l := c :: tail)).length_le
      rw [length]
      refine ⟨?_, le⟩
      rw [List.takeWhile_cons_of_pos inside, List.length_cons]
      omega
  · split
    · unfold scanExtendedIdentifier
      split
      · next n closed => exact ⟨Nat.lt_add_right n Nat.one_pos, quoted_length '\\' c tail n closed⟩
      · exact ⟨positive, Nat.le_refl _⟩
    · split
      · next digit => exact scanNumber_length (c :: tail) digit
      · split
        · unfold scanString
          split
          · next n closed => exact ⟨Nat.lt_add_right n Nat.one_pos, quoted_length '"' c tail n closed⟩
          · exact ⟨positive, Nat.le_refl _⟩
        · split
          · next literal =>
              rw [Bool.and_eq_true] at literal
              have third : 2 < (c :: tail).length := by
                apply lt_of_peek
                intro zero
                have bad := literal.2
                unfold isCharacterLiteral at bad
                rw [zero, show (nul == tick) = false from rfl] at bad
                simp at bad
              show 0 < characterLength _ ∧ characterLength _ ≤ _
              unfold characterLength
              split
              · next four =>
                  rw [Bool.and_eq_true, beq_iff_eq, beq_iff_eq] at four
                  refine ⟨by omega, lt_of_peek _ 3 ?_⟩
                  rw [four.2]
                  decide
              · exact ⟨by omega, third⟩
          · unfold scanSymbol
            split
            · exact symbolLength_le _ some_
            · exact ⟨Nat.one_pos, positive⟩

/-- Scanning the text of a token that is not malformed gives the same token. -/
theorem scanToken_cut (rest : List Char) (some_ : rest ≠ []) (valid : (scanToken rest).kind ≠ .Invalid) :
    scanToken (rest.take (scanToken rest).length) = scanToken rest := by
  have first : peek (rest.take (scanToken rest).length) 0 = peek rest 0 :=
    peek_take rest _ 0 (scanToken_length rest some_).1
  cases rest with
  | nil => contradiction
  | cons c rest =>
      generalize cut : (c :: rest).take (scanToken (c :: rest)).length = text at first ⊢
      unfold scanToken at valid cut ⊢
      dsimp only at valid cut ⊢
      rw [first]
      by_cases alpha : isAlpha (peek (c :: rest) 0) = true
      · rw [if_pos alpha] at valid cut ⊢
        rw [if_pos alpha, ← cut, scanIdentifier_cut]
      · rw [if_neg alpha] at valid cut ⊢
        rw [if_neg alpha]
        by_cases extended : (peek (c :: rest) 0 == '\\') = true
        · rw [if_pos extended] at valid cut ⊢
          rw [if_pos extended, ← cut, scanExtendedIdentifier_cut c rest valid]
        · rw [if_neg extended] at valid cut ⊢
          rw [if_neg extended]
          by_cases number : isDigit (peek (c :: rest) 0) = true
          · rw [if_pos number] at valid cut ⊢
            rw [if_pos number, ← cut, scanNumber_cut _ valid]
          · rw [if_neg number] at valid cut ⊢
            rw [if_neg number]
            by_cases string : (peek (c :: rest) 0 == '"') = true
            · rw [if_pos string] at valid cut ⊢
              rw [if_pos string, ← cut, scanString_cut c rest valid]
            · rw [if_neg string] at valid cut ⊢
              rw [if_neg string]
              by_cases literal : (peek (c :: rest) 0 == tick && isCharacterLiteral (c :: rest)) = true
              · rw [if_pos literal] at valid cut ⊢
                rw [Bool.and_eq_true] at literal
                have again := isCharacterLiteral_cut (c :: rest) literal.2
                unfold scanCharacter at cut ⊢
                dsimp only at cut
                rw [← cut, again, literal.1, characterLength_cut]
                rfl
              · rw [if_neg literal] at valid cut ⊢
                have symbol : ¬ (peek (c :: rest) 0 == tick && isCharacterLiteral text) = true := by
                  intro found
                  rw [Bool.and_eq_true, beq_iff_eq] at found
                  obtain rfl : c = tick := found.1
                  rw [tick_symbol] at cut
                  rw [← cut, List.take_succ_cons, List.take_zero] at found
                  exact absurd found.2 (by decide)
                rw [if_neg symbol, ← cut, scanSymbol_cut c rest valid]

end Naja.Vhdl.Lexer
