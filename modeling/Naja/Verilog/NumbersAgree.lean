import Naja.Verilog.Numbers
import Mathlib.Data.List.Induction
import Mathlib.Data.List.TakeWhile

/-! The vector of a sized number, and which decoders give it. A digit of a base
`2 ^ w` covers `w` bits; bits beyond the digits are zero, or unknown when the
leftmost digit is. -/

namespace Naja.Verilog
open Netlist (NetType)

/-! ### The vector of a number -/

def Base.digitWidth : Base → Nat
  | .BINARY => 1
  | .OCTAL => 3
  | .HEX => 4
  | .DECIMAL => 0

/-- The digits of a base in lower case, `x` and `z` among them where they can stand for one digit of many. -/
def Base.alphabet : Base → List Char
  | .BINARY => "01xz".toList
  | .OCTAL => "01234567xz".toList
  | .HEX => "0123456789abcdefxz".toList
  | .DECIMAL => "0123456789".toList

/-- A sized number without a minus, with digits of its base; a decimal one can be a single `x` or `z`. -/
structure Literal (number : Number) (b : BasedNumber) : Prop where
  value : number.value_ = .based b
  positive : number.sign_ = true
  sized : b.hasSize_ = true
  size : 0 < b.size_
  digits : significant b ≠ []
  legal : (∀ c ∈ significant b, c ∈ b.base_.alphabet) ∨ b.base_ = .DECIMAL ∧ (significant b = ['x'] ∨ significant b = ['z'])

/-- Bit `i` of a digit. -/
def digitBit (c : Char) (i : Nat) : NetType :=
  if c = 'x' then .AssignX else if c = 'z' then .AssignZ else typeOf ((digitValue c).testBit i)

/-- What stands left of the digits. -/
def padType (digits : List Char) : NetType :=
  if digits.headD '0' = 'x' then .AssignX else if digits.headD '0' = 'z' then .AssignZ else .Assign0

def decimalBit (digits : List Char) (k : Nat) : NetType :=
  if digits = ['x'] then .AssignX else if digits = ['z'] then .AssignZ else typeOf ((decimalValue digits).testBit k)

/-- Bit `k` of the digits of a base `2 ^ w`. -/
def positionalBit (w : Nat) (digits : List Char) (k : Nat) : NetType :=
  (digits.reverse[k / w]?).elim (padType digits) (fun c => digitBit c (k % w))

def literalBit (b : BasedNumber) (k : Nat) : NetType :=
  if b.base_ = .DECIMAL then decimalBit (significant b) k else positionalBit b.base_.digitWidth (significant b) k

def vector (b : BasedNumber) : List NetType := (List.range b.size_).map (literalBit b)

def typeChar : NetType → Char
  | .Assign1 => '1'
  | .AssignX => 'x'
  | .AssignZ => 'z'
  | _ => '0'

/-- The notation of a vector as a binary number. -/
def literalText (b : BasedNumber) : String :=
  toString b.size_ ++ (if b.signed_ then "'sb" else "'b") ++ String.ofList ((vector b).reverse.map typeChar)

/-! ### Digits -/

theorem decimal_digit (n : Nat) (small : n < 10) :
    (Char.ofNat (48 + n)).isDigit = true ∧ digitValue (Char.ofNat (48 + n)) = n := by
  revert small
  revert n
  decide

theorem digitValue_of_isDigit (c : Char) (digit : c.isDigit = true) :
    digitValue c = c.toNat - 48 ∧ digitValue c < 10 := by
  have range : 48 ≤ c.toNat ∧ c.toNat ≤ 57 := by
    rw [Char.isDigit, Bool.and_eq_true, decide_eq_true_eq, decide_eq_true_eq] at digit
    exact digit
  have same : digitValue c = c.toNat - 48 := if_pos digit
  omega

/-- A letter changes in lower case only where it is one of the 26 upper-case ones. -/
theorem toLower_cases (c : Char) : c.toLower = c ∨ c ∈ "ABCDEFGHIJKLMNOPQRSTUVWXYZ".toList := by
  by_cases upper : c.val ≥ 'A'.val ∧ c.val ≤ 'Z'.val
  · right
    obtain ⟨n, bound, rfl⟩ : ∃ n, n < 26 ∧ c = Char.ofNat (65 + n) := by
      refine ⟨c.toNat - 65, ?_, ?_⟩
      · have high : c.toNat ≤ 90 := upper.2
        omega
      · have low : 65 ≤ c.toNat := upper.1
        rw [show 65 + (c.toNat - 65) = c.toNat by omega, Char.ofNat_toNat]
    clear upper
    revert bound
    revert n
    decide
  · left
    exact dif_neg upper

/-- A decidable fact about the members of a list is checked on the list, not on all characters. -/
theorem forall_mem_of_all (alphabet : List Char) (P : Char → Prop) [DecidablePred P]
    (all : alphabet.all (fun c => decide (P c)) = true) (c : Char) (mem : c ∈ alphabet) : P c :=
  of_decide_eq_true (List.all_eq_true.mp all c mem)

/-- A decidable fact about the characters whose lower case is in a list is checked on the list and the 26 letters. -/
theorem of_toLower (P : Char → Prop) [DecidablePred P] (alphabet : List Char)
    (lower : alphabet.all (fun c => decide (P c)) = true)
    (upper : "ABCDEFGHIJKLMNOPQRSTUVWXYZ".toList.all (fun c => decide (c.toLower ∈ alphabet → P c)) = true) (c : Char)
    (mem : c.toLower ∈ alphabet) : P c := by
  rcases toLower_cases c with same | letter
  · exact forall_mem_of_all alphabet P lower c (same ▸ mem)
  · exact forall_mem_of_all _ (fun c => c.toLower ∈ alphabet → P c) upper c letter mem

/-! ### Decimal numbers -/

theorem decimalValue_concat (digits : List Char) (c : Char) :
    decimalValue (digits ++ [c]) = 10 * decimalValue digits + digitValue c := by
  rw [decimalValue, List.foldl_append]
  rfl

/-- The quotient and the carry of the digits read so far. -/
structure Halved (value : Nat) (state : Nat × List Char) : Prop where
  value : 2 * decimalValue state.2 + state.1 = value
  carry : state.1 < 2
  digits : ∀ c ∈ state.2, c.isDigit = true

theorem Halved.digit {value : Nat} {state : Nat × List Char} (halved : Halved value state) (c : Char)
    (digit : c.isDigit = true) : Halved (10 * value + digitValue c) (halveDigit state c) := by
  obtain ⟨same, small⟩ := digitValue_of_isDigit c digit
  obtain ⟨sum, carry, digits⟩ := halved
  have current : state.1 * 10 + (c.toNat - 48) < 20 := by omega
  obtain ⟨isDigit, half⟩ := decimal_digit ((state.1 * 10 + (c.toNat - 48)) / 2) (by omega)
  unfold halveDigit
  simp only
  split
  · next pushed =>
      refine ⟨?_, Nat.mod_lt _ (by decide), fun d mem => ?_⟩
      · rw [decimalValue_concat, half]
        omega
      · rcases List.mem_append.mp mem with mem | mem
        · exact digits d mem
        · rw [List.mem_singleton.mp mem]
          exact isDigit
  · next skipped =>
      rw [not_or, not_not] at skipped
      refine ⟨?_, Nat.mod_lt _ (by decide), digits⟩
      rw [skipped.1] at sum ⊢
      change 2 * 0 + _ = _ at sum
      change 2 * 0 + _ = _
      omega

theorem halved (digits : List Char) (all : ∀ c ∈ digits, c.isDigit = true) :
    Halved (decimalValue digits) (digits.foldl halveDigit (0, [])) := by
  induction digits using List.reverseRecOn with
  | nil => exact ⟨rfl, by decide, nofun⟩
  | append_singleton digits c ih =>
      rw [decimalValue_concat, List.foldl_append]
      exact (ih (fun d mem => all d (List.mem_append_left _ mem))).digit c
        (all c (List.mem_append_right _ (List.mem_singleton.mpr rfl)))

/-- The loop lists the bits of the value until only zeros are left. -/
theorem decimalLoop_spec (width : Nat) (remaining : List Char) (all : ∀ c ∈ remaining, c.isDigit = true) :
    (decimalLoop width remaining).length ≤ width ∧
      ∀ k < width, (decimalLoop width remaining).getD k '0' = bitChar ((decimalValue remaining).testBit k) := by
  induction width generalizing remaining with
  | zero => exact ⟨le_rfl, nofun⟩
  | succ width ih =>
      unfold decimalLoop
      split
      · next zero =>
          subst zero
          refine ⟨Nat.zero_le _, fun k _ => ?_⟩
          rw [show decimalValue ['0'] = 0 from rfl, Nat.zero_testBit]
          rfl
      · obtain ⟨sum, carry, digits⟩ := halved remaining all
        generalize remaining.foldl halveDigit (0, []) = state at *
        have rest : ∀ c ∈ (if state.2.isEmpty then ['0'] else state.2), c.isDigit = true := by
          split
          · exact forall_mem_of_all _ _ (by decide)
          · exact digits
        have value : decimalValue (if state.2.isEmpty then ['0'] else state.2) = decimalValue state.2 := by
          split
          · next empty =>
              rw [List.isEmpty_iff.mp empty]
              rfl
          · rfl
        obtain ⟨short, bits⟩ := ih _ rest
        refine ⟨Nat.succ_le_succ short, fun k below => ?_⟩
        cases k with
        | zero =>
            rw [List.getD_cons_zero, ← sum, Nat.testBit_zero]
            congr 1
            have cases : state.1 = 0 ∨ state.1 = 1 := by omega
            rcases cases with zero | one
            · rw [zero]
              simp
            · rw [one]
              simp [Nat.add_mod]
        | succ k =>
            rw [List.getD_cons_succ, bits k (by omega), value, ← sum, Nat.testBit_succ,
              show (2 * decimalValue state.2 + state.1) / 2 = decimalValue state.2 by omega]

/-! ### Canonical text -/

theorem typeChar_digitBit (w : Nat) (c : Char) (unknown : ¬ (c = 'x' ∨ c = 'z')) :
    (List.range w).map (fun i => bitChar ((digitValue c).testBit i)) =
      (List.range w).map (fun i => typeChar (digitBit c i)) := by
  rw [not_or] at unknown
  refine List.map_congr_left (fun i _ => ?_)
  rw [digitBit, if_neg unknown.1, if_neg unknown.2]
  cases (digitValue c).testBit i <;> rfl

/-- The characters of a legal digit are its bits. -/
theorem digitChars_legal (base : Base) (positional : base ≠ .DECIMAL) (c : Char) (legal : c ∈ base.alphabet) :
    digitChars base.digitWidth c = some ((List.range base.digitWidth).map (fun i => typeChar (digitBit c i))) := by
  have known : c ≠ 'x' → c ≠ 'z' → (('0' ≤ c ∧ c ≤ '9') ∨ base.digitWidth = 4 ∧ 'a' ≤ c ∧ c ≤ 'f') ∧
      digitValue c < 2 ^ base.digitWidth := by
    revert legal
    revert c
    cases base with
    | DECIMAL => exact absurd rfl positional
    | BINARY => exact forall_mem_of_all _ _ (by decide)
    | OCTAL => exact forall_mem_of_all _ _ (by decide)
    | HEX => exact forall_mem_of_all _ _ (by decide)
  unfold digitChars
  by_cases x : c = 'x'
  · subst x
    rw [if_pos (.inl rfl)]
    cases base <;> rfl
  · by_cases z : c = 'z'
    · subst z
      rw [if_pos (.inr rfl)]
      cases base <;> rfl
    · rw [if_neg (not_or.mpr ⟨x, z⟩)]
      simp only
      rw [if_pos (known x z), typeChar_digitBit _ c (not_or.mpr ⟨x, z⟩)]

theorem mapM_some {α β : Type} (f : α → Option β) (g : α → β) (l : List α) (all : ∀ a ∈ l, f a = some (g a)) :
    l.mapM f = some (l.map g) := by
  induction l with
  | nil => rfl
  | cons a l ih =>
      rw [List.mapM_cons, all a List.mem_cons_self, ih (fun b mem => all b (List.mem_cons_of_mem _ mem))]
      rfl

theorem digitsChars_legal (base : Base) (positional : base ≠ .DECIMAL) (digits : List Char)
    (legal : ∀ c ∈ digits, c ∈ base.alphabet) :
    digitsChars base.digitWidth digits =
      some (digits.reverse.flatMap (fun c => (List.range base.digitWidth).map (fun i => typeChar (digitBit c i)))) := by
  unfold digitsChars
  rw [mapM_some _ _ _ (fun c mem => digitChars_legal base positional c (legal c (List.mem_reverse.mp mem))),
    Option.map_some, List.flatMap_def]

/-- Digits of one width are indexed by quotient and remainder. -/
theorem getElem?_flatMap_range (w : Nat) (positive : 0 < w) {α β : Type} (f : α → Nat → β) (l : List α) (k : Nat) :
    (l.flatMap (fun c => (List.range w).map (f c)))[k]? = (l[k / w]?).map (fun c => f c (k % w)) := by
  induction l generalizing k with
  | nil => rfl
  | cons c l ih =>
      rw [List.flatMap_cons]
      by_cases first : k < w
      · rw [List.getElem?_append_left (by simpa using first), Nat.div_eq_of_lt first, Nat.mod_eq_of_lt first]
        simp [first]
      · rw [List.getElem?_append_right (by simpa using Nat.le_of_not_lt first), List.length_map, List.length_range, ih]
        obtain ⟨j, rfl⟩ := Nat.exists_eq_add_of_le (Nat.le_of_not_lt first)
        rw [Nat.add_sub_cancel_left, Nat.add_div_left _ positive, Nat.add_mod_left, List.getElem?_cons_succ]

/-- Cut or padded to a width. -/
def resize (width : Nat) (pad : Char) (bits : List Char) : List Char :=
  if bits.length < width then bits ++ List.replicate (width - bits.length) pad else bits.take width

theorem resize_eq (width : Nat) (pad : Char) (bits : List Char) (f : Nat → Char)
    (same : ∀ k < width, (bits[k]?).getD pad = f k) : resize width pad bits = (List.range width).map f := by
  unfold resize
  split
  · next short =>
      apply List.ext_getElem
      · rw [List.length_append, List.length_replicate, List.length_map, List.length_range]
        omega
      · intro k inBits inRange
        rw [List.length_map, List.length_range] at inRange
        rw [List.getElem_map, List.getElem_range, ← same k inRange, List.getElem_append]
        split
        · next inside => rw [List.getElem?_eq_getElem inside, Option.getD_some]
        · next outside => rw [List.getElem?_eq_none (by omega), Option.getD_none, List.getElem_replicate]
  · next long =>
      apply List.ext_getElem
      · rw [List.length_take, List.length_map, List.length_range]
        omega
      · intro k inBits inRange
        rw [List.length_map, List.length_range] at inRange
        rw [List.getElem_map, List.getElem_range, ← same k inRange, List.getElem_take,
          List.getElem?_eq_getElem (by omega), Option.getD_some]

/-- Every vector has a text. -/
theorem formatBitVectorValue_ok (b : BasedNumber) (size : 0 < b.size_) :
    formatBitVectorValue b.size_ ((vector b).map typeChar).reverse b.signed_ = .ok (literalText b) := by
  have length : ((vector b).map typeChar).reverse.length = b.size_ := by
    rw [List.length_reverse, List.length_map, vector, List.length_map, List.length_range]
  have lower : ((vector b).map typeChar).reverse.map Char.toLower = (vector b).reverse.map typeChar := by
    rw [← List.map_reverse, List.map_map]
    refine List.map_congr_left (fun type _ => ?_)
    cases type <;> decide
  have digits : ((vector b).reverse.map typeChar).all (fun c => c == '0' || c == '1' || c == 'x' || c == 'z') = true := by
    rw [List.all_map, List.all_eq_true]
    intro type _
    cases type <;> decide
  unfold formatBitVectorValue
  rw [if_neg (by omega), lower, if_pos digits]
  rfl

theorem typeChar_padType (digits : List Char) :
    (if digits.headD '0' = 'x' ∨ digits.headD '0' = 'z' then digits.headD '0' else '0') = typeChar (padType digits) := by
  unfold padType
  by_cases x : digits.headD '0' = 'x'
  · rw [if_pos (.inl x), if_pos x, x]
    rfl
  · by_cases z : digits.headD '0' = 'z'
    · rw [if_pos (.inr z), if_neg x, if_pos z, z]
      rfl
    · rw [if_neg (not_or.mpr ⟨x, z⟩), if_neg x, if_neg z]
      rfl

/-- The characters of the digits, and the padding beyond them, are the bits of the number. -/
def CharsOf (b : BasedNumber) (bits : List Char) : Prop :=
  ∀ k < b.size_, (bits[k]?).getD (typeChar (padType (significant b))) = typeChar (literalBit b k)

theorem positional_chars (b : BasedNumber) (positional : b.base_ ≠ .DECIMAL)
    (legal : ∀ c ∈ significant b, c ∈ b.base_.alphabet) :
    ∃ bits, digitsChars b.base_.digitWidth (significant b) = some bits ∧ CharsOf b bits := by
  refine ⟨_, digitsChars_legal b.base_ positional _ legal, fun k _ => ?_⟩
  have positive : 0 < b.base_.digitWidth := by
    revert positional
    cases b.base_ <;> decide
  rw [getElem?_flatMap_range _ positive (fun c i => typeChar (digitBit c i)), literalBit, if_neg positional,
    positionalBit]
  cases (significant b).reverse[k / b.base_.digitWidth]? <;> rfl

theorem decimal_chars (b : BasedNumber) (decimal : b.base_ = .DECIMAL)
    (legal : (∀ c ∈ significant b, c ∈ b.base_.alphabet) ∨ significant b = ['x'] ∨ significant b = ['z']) :
    ∃ bits, decimalChars b.size_ (significant b) = some bits ∧ CharsOf b bits := by
  unfold CharsOf literalBit
  simp only [if_pos decimal]
  rcases legal with legal | x | z
  · rw [decimal] at legal
    generalize significant b = digits at *
    have all : ∀ c ∈ digits, c.isDigit = true :=
      fun c mem => forall_mem_of_all Base.DECIMAL.alphabet (fun c => c.isDigit = true) (by decide) c (legal c mem)
    have notX : digits ≠ ['x'] := fun same => absurd (all 'x' (by rw [same]; exact List.mem_singleton.mpr rfl)) (by decide)
    have notZ : digits ≠ ['z'] := fun same => absurd (all 'z' (by rw [same]; exact List.mem_singleton.mpr rfl)) (by decide)
    have pad : typeChar (padType digits) = '0' := by
      cases digits with
      | nil => rfl
      | cons c rest =>
          have first := legal c List.mem_cons_self
          exact forall_mem_of_all Base.DECIMAL.alphabet (fun c => typeChar (padType [c]) = '0') (by decide) c first
    refine ⟨decimalLoop b.size_ digits, ?_, fun k below => ?_⟩
    · unfold decimalChars
      rw [if_neg (not_or.mpr ⟨notX, notZ⟩), if_pos (List.all_eq_true.mpr all)]
    · rw [pad, ← List.getD_eq_getElem?_getD, (decimalLoop_spec b.size_ digits all).2 k below, decimalBit,
        if_neg notX, if_neg notZ]
      cases (decimalValue digits).testBit k <;> rfl
  · rw [x]
    exact ⟨['x'], rfl, fun k _ => by cases k <;> rfl⟩
  · rw [z]
    exact ⟨['z'], rfl, fun k _ => by cases k <;> rfl⟩

/-- Every literal has a canonical text, the notation of its vector. -/
theorem canonicalizeBasedNumber_literal (number : Number) (b : BasedNumber) (literal : Literal number b) :
    canonicalizeBasedNumber number = .ok (some (literalText b)) := by
  have chars : ∃ bits, literalChars b (significant b) = some bits ∧ CharsOf b bits := by
    unfold literalChars
    have legal (positional : b.base_ ≠ .DECIMAL) : ∀ c ∈ significant b, c ∈ b.base_.alphabet :=
      literal.legal.resolve_right (fun given => positional given.1)
    cases base : b.base_ with
    | DECIMAL =>
        have digits := literal.legal.imp id And.right
        exact decimal_chars b base digits
    | BINARY | OCTAL | HEX =>
        have found := positional_chars b (by rw [base]; decide) (legal (by rw [base]; decide))
        rw [base] at found
        exact found
  obtain ⟨bits, found, same⟩ := chars
  have sized : resize b.size_ (typeChar (padType (significant b))) bits = (vector b).map typeChar := by
    rw [resize_eq _ _ _ (fun k => typeChar (literalBit b k)) same, vector, List.map_map]
    rfl
  have flags : ¬ ((!b.hasSize_ || !number.sign_) = true) := by
    rw [literal.sized, literal.positive]
    decide
  unfold canonicalizeBasedNumber
  rw [literal.value]
  simp only
  rw [if_neg flags, if_neg (not_or.mpr ⟨Nat.pos_iff_ne_zero.mp literal.size, literal.digits⟩), found]
  simp only
  rw [typeChar_padType]
  change (formatBitVectorValue b.size_ (resize b.size_ _ bits).reverse b.signed_).map some = _
  rw [sized, formatBitVectorValue_ok b literal.size]
  rfl

/-! ### Net types -/

theorem getD_foldl_set (offset : Nat) (type : Nat → NetType) (n : Nat) (bits : List NetType) (k : Nat) :
    let out := (List.range n).foldl (fun bits bit => bits.set (offset + bit) (type bit)) bits
    out.length = bits.length ∧
      (k < bits.length → out.getD k .Standard =
        if offset ≤ k ∧ k < offset + n then type (k - offset) else bits.getD k .Standard) := by
  induction n with
  | zero => exact ⟨rfl, fun _ => by rw [if_neg (by omega)]; rfl⟩
  | succ n ih =>
      obtain ⟨length, values⟩ := ih
      simp only [List.range_succ, List.foldl_append, List.foldl_cons, List.foldl_nil, List.length_set]
      refine ⟨length, fun inside => ?_⟩
      have before := values inside
      rw [List.getD_eq_getElem?_getD] at before ⊢
      rw [List.getElem?_set, length]
      by_cases here : offset + n = k
      · rw [if_pos here, if_pos (here ▸ inside), if_pos (by omega), Option.getD_some, show k - offset = n by omega]
      · rw [if_neg here, before]
        by_cases within : offset ≤ k ∧ k < offset + n
        · rw [if_pos within, if_pos (by omega)]
        · rw [if_neg within, if_neg (by omega)]

/-- The walk both loops over digits make: each digit sets the `w` bits that it covers, while there are bits. -/
def walk (w : Nat) (type : Char → Nat → NetType) : List Char → Nat → List NetType → List NetType
  | [], _, bits => bits
  | c :: rest, offset, bits =>
      if offset < bits.length then
        walk w type rest (offset + w) ((List.range w).foldl (fun bits bit => bits.set (offset + bit) (type c bit)) bits)
      else bits

theorem walk_spec (w : Nat) (positive : 0 < w) (type : Char → Nat → NetType) (digits : List Char) (offset : Nat)
    (bits : List NetType) :
    (walk w type digits offset bits).length = bits.length ∧
      ∀ k < bits.length, (walk w type digits offset bits).getD k .Standard =
        if k < offset then bits.getD k .Standard
        else (digits[(k - offset) / w]?).elim (bits.getD k .Standard) (fun c => type c ((k - offset) % w)) := by
  induction digits generalizing offset bits with
  | nil => exact ⟨rfl, fun k _ => by rw [List.getElem?_nil, Option.elim_none, ite_self]; rfl⟩
  | cons c rest ih =>
      unfold walk
      split
      · next inside =>
          have set := getD_foldl_set offset (type c) w bits
          obtain ⟨length, values⟩ := ih (offset + w)
            ((List.range w).foldl (fun bits bit => bits.set (offset + bit) (type c bit)) bits)
          refine ⟨length.trans (set 0).1, fun k below => ?_⟩
          rw [values k ((set 0).1 ▸ below), (set k).2 below]
          by_cases before : k < offset
          · rw [if_pos before, if_pos (by omega), if_neg (by omega)]
          · rw [if_neg before]
            by_cases here : k < offset + w
            · rw [if_pos here, if_pos (by omega), Nat.div_eq_of_lt (by omega), Nat.mod_eq_of_lt (by omega),
                List.getElem?_cons_zero, Option.elim_some]
            · obtain ⟨j, rfl⟩ := Nat.exists_eq_add_of_le (Nat.le_of_not_lt here)
              rw [if_neg here, if_neg (by omega), show offset + w + j - offset = w + j by omega,
                Nat.add_sub_cancel_left, Nat.add_div_left _ positive, Nat.add_mod_left, List.getElem?_cons_succ]
      · next outside =>
          refine ⟨rfl, fun k below => ?_⟩
          rw [if_pos (by omega)]

/-- On digits alone, the walk from the last digit gives the vector if nothing is to be padded with an unknown. -/
theorem walk_vector (b : BasedNumber) (positional : b.base_ ≠ .DECIMAL) (digits : List Char)
    (type : Char → Nat → NetType) (lower : significant b = digits.map Char.toLower)
    (types : ∀ c ∈ digits, ∀ i < b.base_.digitWidth, type c i = digitBit c.toLower i)
    (filled : padType (significant b) ≠ .Assign0 → b.size_ ≤ b.base_.digitWidth * digits.length) :
    walk b.base_.digitWidth type digits.reverse 0 (List.replicate b.size_ .Assign0) = vector b := by
  have positive : 0 < b.base_.digitWidth := by
    revert positional
    cases b.base_ <;> decide
  obtain ⟨length, values⟩ := walk_spec b.base_.digitWidth positive type digits.reverse 0
    (List.replicate b.size_ .Assign0)
  rw [List.length_replicate] at length values
  apply List.ext_getElem
  · rw [length, vector, List.length_map, List.length_range]
  intro k inWalk inVector
  have below : k < b.size_ := length ▸ inWalk
  have value := values k below
  rw [List.getD_eq_getElem _ _ inWalk, if_neg (Nat.not_lt_zero k), Nat.sub_zero] at value
  have bit : (vector b)[k] = literalBit b k := by simp [vector]
  rw [value, bit, literalBit, if_neg positional, positionalBit, lower, ← List.map_reverse, List.getElem?_map]
  cases found : digits.reverse[k / b.base_.digitWidth]? with
  | some c =>
      have mem := List.mem_reverse.mp (List.mem_of_getElem? found)
      exact types c mem _ (Nat.mod_lt _ positive)
  | none =>
      have beyond : digits.length ≤ k / b.base_.digitWidth := by
        rw [← List.length_reverse]
        exact List.getElem?_eq_none_iff.mp found
      have zero : padType (significant b) = .Assign0 := by
        by_contra unknown
        have enough := (Nat.le_div_iff_mul_le positive).mp beyond
        have size := filled unknown
        rw [Nat.mul_comm] at enough
        omega
      rw [Option.map_none, Option.elim_none, Option.elim_none, ← lower, zero]
      simp [List.getD_eq_getElem?_getD, below]

theorem binaryTypesLoop_eq (digits : List Char) (legal : ∀ c ∈ digits, c.toLower ∈ Base.BINARY.alphabet)
    (index : Nat) (bits : List NetType) :
    binaryTypesLoop digits index bits = .ok (walk 1 (fun c i => digitBit c.toLower i) digits index bits) := by
  induction digits generalizing index bits with
  | nil => rfl
  | cons c rest ih =>
      have type : binaryType c.toUpper = some (digitBit c.toLower 0) :=
        of_toLower (fun c => binaryType c.toUpper = some (digitBit c.toLower 0)) Base.BINARY.alphabet
          (by decide) (by decide) c (legal c List.mem_cons_self)
      unfold binaryTypesLoop walk
      split
      · rw [type]
        exact ih (fun d mem => legal d (List.mem_cons_of_mem _ mem)) _ _
      · rfl

theorem setFour_congr (offset : Nat) (type other : Nat → NetType) (same : ∀ i < 4, type i = other i)
    (bits : List NetType) : setFour offset type bits = setFour offset other bits := by
  unfold setFour
  apply List.foldl_ext
  intro bits i mem
  rw [same i (List.mem_range.mp mem)]

/-- What `setHexDigit` makes of the character, whichever of its branches it takes. -/
theorem hexDigit_types (c : Char) (legal : c.toLower ∈ Base.HEX.alphabet) :
    let upper := c.toUpper
    if '0' ≤ upper ∧ upper ≤ '9' then ∀ i < 4, typeOf ((upper.toNat - 48).testBit i) = digitBit c.toLower i
    else if 'A' ≤ upper ∧ upper ≤ 'F' then ∀ i < 4, typeOf ((upper.toNat - 65 + 10).testBit i) = digitBit c.toLower i
    else (upper = 'X' ∨ upper = 'Z') ∧ ∀ i < 4, (if upper = 'X' then .AssignX else .AssignZ) = digitBit c.toLower i := by
  revert legal
  revert c
  apply of_toLower <;> decide

theorem setHexDigit_legal (offset : Nat) (c : Char) (legal : c.toLower ∈ Base.HEX.alphabet) (bits : List NetType) :
    setHexDigit offset c bits = .ok (setFour offset (fun i => digitBit c.toLower i) bits) := by
  have types := hexDigit_types c legal
  unfold setHexDigit
  simp only at types ⊢
  split at types
  · next numeric => rw [if_pos numeric, setFour_congr _ _ _ types]
  · next notNumeric =>
      rw [if_neg notNumeric]
      split at types
      · next letter => rw [if_pos letter, setFour_congr _ _ _ types]
      · next notLetter => rw [if_neg notLetter, if_pos types.1, setFour_congr _ _ _ types.2]

theorem hexTypesLoop_eq (digits : List Char) (legal : ∀ c ∈ digits, c.toLower ∈ Base.HEX.alphabet) (offset : Nat)
    (bits : List NetType) :
    hexTypesLoop digits offset bits = .ok (walk 4 (fun c i => digitBit c.toLower i) digits offset bits) := by
  induction digits generalizing offset bits with
  | nil => rfl
  | cons c rest ih =>
      unfold hexTypesLoop walk
      split
      · rw [setHexDigit_legal offset c (legal c List.mem_cons_self)]
        exact ih (fun d mem => legal d (List.mem_cons_of_mem _ mem)) _ _
      · rfl

/-! ### Bits -/

theorem getD_foldl_setBit (offsets : List Nat) (i : Nat) (bits : List Bool) (k : Nat) :
    let out := offsets.foldl (fun bits offset => setBit bits (i + offset)) bits
    out.length = bits.length ∧
      (k < bits.length → out.getD k false = (bits.getD k false || decide (i ≤ k ∧ k - i ∈ offsets))) := by
  induction offsets generalizing bits with
  | nil => exact ⟨rfl, fun _ => by simp⟩
  | cons offset offsets ih =>
      have length : (setBit bits (i + offset)).length = bits.length := by
        unfold setBit
        split
        · exact List.length_set
        · rfl
      obtain ⟨same, values⟩ := ih (setBit bits (i + offset))
      refine ⟨same.trans length, fun below => ?_⟩
      have here : (setBit bits (i + offset)).getD k false = (bits.getD k false || decide (i + offset = k)) := by
        unfold setBit
        rw [List.getD_eq_getElem?_getD]
        split
        · next inside =>
            rw [List.getElem?_set]
            by_cases equal : i + offset = k
            · rw [if_pos equal, if_pos inside, decide_eq_true equal, Bool.or_true]
              rfl
            · rw [if_neg equal, decide_eq_false equal, Bool.or_false, List.getD_eq_getElem?_getD]
        · next outside => rw [decide_eq_false (by omega), Bool.or_false, List.getD_eq_getElem?_getD]
      rw [List.foldl_cons, values (length ▸ below), here, Bool.or_assoc]
      congr 1
      rw [Bool.eq_iff_iff, Bool.or_eq_true, decide_eq_true_eq, decide_eq_true_eq, decide_eq_true_eq, List.mem_cons]
      constructor
      · rintro (rfl | ⟨above, mem⟩)
        · exact ⟨by omega, .inl (by omega)⟩
        · exact ⟨above, .inr mem⟩
      · rintro ⟨above, same | mem⟩
        · exact .inl (by omega)
        · exact .inr ⟨above, mem⟩

/-- The digits without `x` and `z`. -/
def knownHex : List Char := "0123456789abcdef".toList

theorem hexOffsets_known (c : Char) (known : c.toLower ∈ knownHex) :
    ∃ offsets, hexOffsets c.toUpper = some offsets ∧ (∀ j ∈ offsets, j < 4) ∧
      ∀ j < 4, j ∈ offsets ↔ (digitValue c.toLower).testBit j = true := by
  have fact : (hexOffsets c.toUpper).any (fun offsets => offsets.all (fun j => decide (j < 4)) &&
      (List.range 4).all (fun j => offsets.contains j == (digitValue c.toLower).testBit j)) = true := by
    revert known
    revert c
    apply of_toLower <;> decide
  obtain ⟨offsets, found, fits⟩ := (Option.any_eq_true _ _).mp fact
  rw [Bool.and_eq_true, List.all_eq_true, List.all_eq_true] at fits
  refine ⟨offsets, found, fun j mem => of_decide_eq_true (fits.1 j mem), fun j below => ?_⟩
  have same := beq_iff_eq.mp (fits.2 j (List.mem_range.mpr below))
  rw [← same, List.contains_iff_mem]

theorem hexLoop_spec (size : Nat) (digits : List Char) (known : ∀ c ∈ digits, c.toLower ∈ knownHex) (i : Nat)
    (bits : List Bool) (length : bits.length = size) :
    ∃ out, hexLoop size digits i bits = .ok out ∧ out.length = size ∧
      ∀ k < size, out.getD k false = (bits.getD k false || (decide (i ≤ k) &&
        (digits[(k - i) / 4]?).any (fun c => (digitValue c.toLower).testBit ((k - i) % 4)))) := by
  induction digits generalizing i bits with
  | nil => exact ⟨bits, rfl, length, fun k _ => by simp⟩
  | cons c rest ih =>
      obtain ⟨offsets, found, small, exactly⟩ := hexOffsets_known c (known c List.mem_cons_self)
      have set := getD_foldl_setBit offsets i bits
      unfold hexLoop
      rw [found]
      simp only
      generalize offsets.foldl (fun bits offset => setBit bits (i + offset)) bits = bits' at *
      have here (k : Nat) (inside : i ≤ k) (below : k < i + 4) :
          decide (i ≤ k ∧ k - i ∈ offsets) = (digitValue c.toLower).testBit (k - i) := by
        rw [Bool.eq_iff_iff, decide_eq_true_eq, ← exactly (k - i) (by omega)]
        exact ⟨And.right, fun mem => ⟨inside, mem⟩⟩
      have beyond (k : Nat) (outside : ¬ (i ≤ k ∧ k < i + 4)) : decide (i ≤ k ∧ k - i ∈ offsets) = false := by
        apply decide_eq_false
        intro ⟨inside, mem⟩
        have bound := small _ mem
        omega
      split
      · next last =>
          refine ⟨bits', rfl, (set 0).1.trans length, fun k below => ?_⟩
          rw [(set k).2 (length ▸ below)]
          by_cases inside : i ≤ k
          · rw [here k inside (by omega), decide_eq_true inside, Nat.div_eq_of_lt (by omega), Nat.mod_eq_of_lt (by omega)]
            rfl
          · rw [beyond k (by omega), decide_eq_false inside]
            rfl
      · next more =>
          obtain ⟨out, result, size', values⟩ := ih (fun d mem => known d (List.mem_cons_of_mem _ mem)) (i + 4) bits'
            ((set 0).1.trans length)
          refine ⟨out, result, size', fun k below => ?_⟩
          rw [values k below, (set k).2 (length ▸ below), Bool.or_assoc]
          by_cases inside : i ≤ k
          · by_cases first : k < i + 4
            · rw [here k inside first, decide_eq_true inside, decide_eq_false (by omega), Bool.false_and, Bool.or_false,
                Bool.true_and, Nat.div_eq_of_lt (by omega), Nat.mod_eq_of_lt (by omega), List.getElem?_cons_zero,
                Option.any_some]
            · obtain ⟨j, rfl⟩ := Nat.exists_eq_add_of_le (Nat.le_of_not_lt first)
              rw [beyond _ (by omega), decide_eq_true inside, decide_eq_true (by omega),
                show i + 4 + j - i = 4 + j by omega, Nat.add_sub_cancel_left, Nat.add_div_left _ (by decide),
                Nat.add_mod_left, List.getElem?_cons_succ, Bool.false_or]
          · rw [beyond k (by omega), decide_eq_false inside, decide_eq_false (by omega)]
            rfl

/-- On known digits, the bits are those of the vector. -/
theorem hexLoop_vector (b : BasedNumber) (hex : b.base_ = .HEX) (lower : significant b = b.digits_.map Char.toLower)
    (known : ∀ c ∈ b.digits_, c.toLower ∈ knownHex) :
    ∃ bits, hexLoop b.size_ b.digits_.reverse 0 (List.replicate b.size_ false) = .ok bits ∧
      bits.map typeOf = vector b := by
  obtain ⟨out, result, length, values⟩ := hexLoop_spec b.size_ b.digits_.reverse
    (fun c mem => known c (List.mem_reverse.mp mem)) 0 (List.replicate b.size_ false) List.length_replicate
  refine ⟨out, result, ?_⟩
  apply List.ext_getElem
  · rw [List.length_map, length, vector, List.length_map, List.length_range]
  intro k inOut inVector
  rw [List.length_map] at inOut
  have value := values k (length ▸ inOut)
  rw [List.getD_eq_getElem _ _ inOut, List.getD_replicate _ (length ▸ inOut), Bool.false_or,
    decide_eq_true (Nat.zero_le k), Bool.true_and, Nat.sub_zero] at value
  have bit : (vector b)[k] = literalBit b k := by simp [vector]
  have pad : padType (significant b) = .Assign0 := by
    rw [lower]
    cases digits : b.digits_ with
    | nil => rfl
    | cons c rest =>
        have first := known c (by rw [digits]; exact List.mem_cons_self)
        exact forall_mem_of_all knownHex (fun d => padType [d] = .Assign0) (by decide) c.toLower first
  rw [List.getElem_map, value, bit, literalBit, hex, if_neg (by decide), positionalBit, pad, lower, ← List.map_reverse,
    List.getElem?_map]
  change typeOf ((b.digits_.reverse[k / 4]?).any _) = ((b.digits_.reverse[k / 4]?).map Char.toLower).elim _ _
  cases found : b.digits_.reverse[k / 4]? with
  | none => rfl
  | some c =>
      have mem := known c (List.mem_reverse.mp (List.mem_of_getElem? found))
      have notX : c.toLower ≠ 'x' := fun same => absurd (same ▸ mem) (by decide)
      have notZ : c.toLower ≠ 'z' := fun same => absurd (same ▸ mem) (by decide)
      change _ = digitBit c.toLower (k % 4)
      rw [digitBit, if_neg notX, if_neg notZ]
      rfl

theorem stoul_digits (digits : List Char) (nonempty : digits ≠ []) (all : ∀ c ∈ digits, c.isDigit = true)
    (fits : decimalValue digits < 2 ^ 64) : stoul digits = .ok (decimalValue digits) := by
  obtain ⟨c, rest, rfl⟩ := List.exists_cons_of_ne_nil nonempty
  have digit := all c List.mem_cons_self
  have head : isSpace c = false ∧ (some c == some '-') = false ∧ (some c == some '+') = false := by
    rw [Char.isDigit, Bool.and_eq_true, decide_eq_true_eq, decide_eq_true_eq] at digit
    have low : 48 ≤ c.toNat := digit.1
    refine ⟨?_, ?_, ?_⟩
    · have notBlank : c ≠ ' ' := fun same => absurd (same ▸ low) (by decide)
      simp only [isSpace, Bool.or_eq_false_iff, beq_eq_false_iff_ne, Bool.and_eq_false_iff, decide_eq_false_iff_not]
      exact ⟨notBlank, .inr (by omega)⟩
    · rw [beq_eq_false_iff_ne]
      intro same
      exact absurd (Option.some.inj same ▸ low) (by decide)
    · rw [beq_eq_false_iff_ne]
      intro same
      exact absurd (Option.some.inj same ▸ low) (by decide)
  have taken : (c :: rest).takeWhile Char.isDigit = c :: rest := List.takeWhile_eq_self_iff.mpr all
  unfold stoul
  rw [List.dropWhile_cons_of_neg (by rw [head.1]; decide)]
  simp only [List.head?_cons, head.2.1, head.2.2, Bool.or_self, Bool.false_eq_true, if_false, taken, List.isEmpty_cons]
  rw [if_neg (Nat.not_le.mpr fits)]

/-! ### Agreement -/

/-- What the two other decoders are made for: no underscore and no octal base, digits up to the width where the
leftmost one is unknown, and decimal values of an unsigned long. -/
structure Plain (b : BasedNumber) : Prop where
  underscore : '_' ∉ b.digits_
  base : b.base_ ≠ .OCTAL
  filled : b.base_ ≠ .DECIMAL → padType (significant b) ≠ .Assign0 → b.size_ ≤ b.base_.digitWidth * b.digits_.length
  decimal : b.base_ = .DECIMAL → 'x' ∉ significant b ∧ 'z' ∉ significant b ∧ decimalValue (significant b) < 2 ^ 64

theorem Plain.significant_eq {b : BasedNumber} (plain : Plain b) : significant b = b.digits_.map Char.toLower := by
  have kept : b.digits_.filter (fun c => c != '_') = b.digits_ := by
    rw [List.filter_eq_self]
    intro c mem
    rw [bne_iff_ne]
    rintro rfl
    exact plain.underscore mem
  rw [significant, kept]

theorem Plain.legal {number : Number} {b : BasedNumber} (plain : Plain b) (literal : Literal number b) :
    ∀ c ∈ b.digits_, c.toLower ∈ b.base_.alphabet := by
  intro c mem
  have inLower : c.toLower ∈ significant b := by
    rw [plain.significant_eq]
    exact List.mem_map_of_mem mem
  rcases literal.legal with all | ⟨decimal, x | z⟩
  · exact all _ inLower
  · exact absurd (by rw [x]; exact List.mem_singleton.mpr rfl) (plain.decimal decimal).1
  · exact absurd (by rw [z]; exact List.mem_singleton.mpr rfl) (plain.decimal decimal).2.1

/-- A plain decimal literal: both decoders give its vector. -/
theorem decimal_vector {number : Number} {b : BasedNumber} (literal : Literal number b) (plain : Plain b)
    (decimal : b.base_ = .DECIMAL) : ∃ bits, numberToBits b = .ok bits ∧ bits.map typeOf = vector b := by
  obtain ⟨noX, noZ, fits⟩ := plain.decimal decimal
  have legal := plain.legal literal
  rw [decimal] at legal
  have digit (c : Char) (mem : c ∈ b.digits_) : c.isDigit = true ∧ c.toLower = c :=
    of_toLower (fun c => c.isDigit = true ∧ c.toLower = c) Base.DECIMAL.alphabet
      (by decide) (by decide) c (legal c mem)
  have same : significant b = b.digits_ := by
    rw [plain.significant_eq]
    exact (List.map_congr_left (fun c mem => (digit c mem).2)).trans (List.map_id _)
  have notX : b.digits_ ≠ ['x'] := fun x => noX (by rw [same, x]; exact List.mem_singleton.mpr rfl)
  have notZ : b.digits_ ≠ ['z'] := fun z => noZ (by rw [same, z]; exact List.mem_singleton.mpr rfl)
  rw [same] at fits
  have value := stoul_digits b.digits_ (same ▸ literal.digits) (fun c mem => (digit c mem).1) fits
  refine ⟨(List.range b.size_).map (decimalValue b.digits_).testBit, ?_, ?_⟩
  · unfold numberToBits
    rw [decimal]
    simp only
    rw [value]
    rfl
  · rw [vector, List.map_map]
    refine List.map_congr_left (fun k _ => ?_)
    rw [literalBit, if_pos decimal, same, decimalBit, if_neg notX, if_neg notZ]
    rfl

theorem numberToNetTypes_plain {number : Number} {b : BasedNumber} (literal : Literal number b) (plain : Plain b) :
    numberToNetTypes b = .ok (vector b) := by
  have legal := plain.legal literal
  have walked (positional : b.base_ ≠ .DECIMAL) := walk_vector b positional b.digits_
    (fun c i => digitBit c.toLower i) plain.significant_eq (fun _ _ _ _ => rfl) (plain.filled positional)
  unfold numberToNetTypes
  cases base : b.base_ with
  | OCTAL => exact absurd base plain.base
  | DECIMAL =>
      obtain ⟨bits, decoded, same⟩ := decimal_vector literal plain base
      simp only
      rw [decoded]
      exact congrArg Except.ok same
  | BINARY =>
      rw [base] at legal walked
      simp only
      rw [binaryTypesLoop_eq _ (fun c mem => legal c (List.mem_reverse.mp mem))]
      exact congrArg Except.ok (walked (by decide))
  | HEX =>
      rw [base] at legal walked
      simp only
      rw [hexTypesLoop_eq _ (fun c mem => legal c (List.mem_reverse.mp mem))]
      exact congrArg Except.ok (walked (by decide))

theorem numberToBits_plain {number : Number} {b : BasedNumber} (literal : Literal number b) (plain : Plain b)
    (notBinary : b.base_ ≠ .BINARY) (known : 'x' ∉ significant b ∧ 'z' ∉ significant b) :
    ∃ bits, numberToBits b = .ok bits ∧ bits.map typeOf = vector b := by
  have legal := plain.legal literal
  cases base : b.base_ with
  | OCTAL => exact absurd base plain.base
  | BINARY => exact absurd base notBinary
  | DECIMAL => exact decimal_vector literal plain base
  | HEX =>
      rw [base] at legal
      have digits (c : Char) (mem : c ∈ b.digits_) : c.toLower ∈ knownHex := by
        have inLower : c.toLower ∈ significant b := by
          rw [plain.significant_eq]
          exact List.mem_map_of_mem mem
        have notX : c.toLower ≠ 'x' := fun same => known.1 (same ▸ inLower)
        have notZ : c.toLower ≠ 'z' := fun same => known.2 (same ▸ inLower)
        exact forall_mem_of_all Base.HEX.alphabet (fun d => d ≠ 'x' → d ≠ 'z' → d ∈ knownHex) (by decide) _ (legal c mem) notX notZ
      have decoded := hexLoop_vector b base plain.significant_eq digits
      unfold numberToBits
      rw [base]
      exact decoded

/-- Every literal has its vector as canonical text; octal numbers have no net types and no bits; the net types and,
but for binary numbers, the bits of plain numbers are the vector. -/
theorem decoders_agree (number : Number) (b : BasedNumber) (literal : Literal number b) :
    canonicalizeBasedNumber number = .ok (some (literalText b)) ∧
      (b.base_ = .OCTAL → numberToNetTypes b = .error (.unsupportedFormat .OCTAL) ∧
        numberToBits b = .error (.unsupportedFormat .OCTAL)) ∧
      (Plain b → numberToNetTypes b = .ok (vector b) ∧
        (b.base_ ≠ .BINARY → 'x' ∉ significant b ∧ 'z' ∉ significant b →
          ∃ bits, numberToBits b = .ok bits ∧ bits.map typeOf = vector b)) := by
  refine ⟨canonicalizeBasedNumber_literal number b literal, fun octal => ?_, fun plain =>
    ⟨numberToNetTypes_plain literal plain, numberToBits_plain literal plain⟩⟩
  unfold numberToNetTypes numberToBits
  rw [octal]
  exact ⟨rfl, rfl⟩

/-- `12'hx2A`, padded to nothing. -/
theorem hex_agrees :
    canonicalizeBasedNumber ⟨true, .based ⟨true, 12, false, .HEX, "x2A".toList⟩⟩ = .ok (some "12'bxxxx00101010") ∧
      numberToNetTypes ⟨true, 12, false, .HEX, "x2A".toList⟩ = .ok (vector ⟨true, 12, false, .HEX, "x2A".toList⟩) := by
  have agree := decoders_agree ⟨true, .based ⟨true, 12, false, .HEX, "x2A".toList⟩⟩ ⟨true, 12, false, .HEX, "x2A".toList⟩
    ⟨rfl, rfl, rfl, by decide, by decide, .inl (forall_mem_of_all _ _ (by decide))⟩
  have text : literalText ⟨true, 12, false, .HEX, "x2A".toList⟩ = "12'bxxxx00101010" := by decide +kernel
  refine ⟨text ▸ agree.1, (agree.2.2 ⟨by decide, by decide, fun _ _ => by decide, nofun⟩).1⟩

/-- `3'o7` has a canonical text, and the other decoders refuse it. -/
theorem octal_disagrees :
    Literal ⟨true, .based ⟨true, 3, false, .OCTAL, ['7']⟩⟩ ⟨true, 3, false, .OCTAL, ['7']⟩ ∧
      canonicalizeBasedNumber ⟨true, .based ⟨true, 3, false, .OCTAL, ['7']⟩⟩ = .ok (some "3'b111") ∧
      numberToNetTypes ⟨true, 3, false, .OCTAL, ['7']⟩ = .error (.unsupportedFormat .OCTAL) ∧
      numberToBits ⟨true, 3, false, .OCTAL, ['7']⟩ = .error (.unsupportedFormat .OCTAL) :=
  ⟨⟨rfl, rfl, rfl, by decide, by decide, .inl (forall_mem_of_all _ _ (by decide))⟩, by decide +kernel, rfl, rfl⟩

end Naja.Verilog
