import Naja.Primitives.GetOrCreate

/-! The names and the parameters tell the signatures apart: a name is read from left to
right, since no number in it goes on in the text behind it, and a parameter is read back
as what was written. -/

namespace Naja.Primitives.DB0
open NLDB0 (GateType Signature boolDigit maxBit maxDesignID maxSize)

/-! ### Decimal numbers in a text -/

theorem toList_toString (n : Nat) : (toString n).toList = Nat.toDigits 10 n := by
  rw [Nat.toString_eq_ofList_toDigits, String.toList_ofList]

theorem takeWhile_number (n : Nat) (rest : List Char) (stops : ∀ c ∈ rest.head?, c.isDigit = false) :
    ((toString n).toList ++ rest).takeWhile Char.isDigit = (toString n).toList := by
  have digits : ∀ c ∈ (toString n).toList, c.isDigit := by
    intro c member
    rw [toList_toString] at member
    exact Nat.isDigit_of_mem_toDigits (by decide) (by decide) member
  rw [List.takeWhile_append_of_pos digits]
  cases rest with
  | nil => rw [List.takeWhile_nil, List.append_nil]
  | cons c rest => rw [List.takeWhile_cons_of_neg (by simp [stops c rfl]), List.append_nil]

theorem toString_inj (m n : Nat) (same : (toString m).toList = (toString n).toList) : m = n := by
  rw [toList_toString, toList_toString] at same
  calc
    m = Nat.ofDigitChars 10 (Nat.toDigits 10 m) 0 := (Nat.ofDigitChars_ten_toDigits ..).symm
    _ = Nat.ofDigitChars 10 (Nat.toDigits 10 n) 0 := by rw [same]
    _ = n := Nat.ofDigitChars_ten_toDigits ..

/-- Equal texts begin with equal numbers and go on alike. -/
theorem number_append (m n : Nat) (s t : List Char) (stopS : ∀ c ∈ s.head?, c.isDigit = false)
    (stopT : ∀ c ∈ t.head?, c.isDigit = false)
    (same : (toString m).toList ++ s = (toString n).toList ++ t) : m = n ∧ s = t := by
  have numbers : (toString m).toList = (toString n).toList := by
    rw [← takeWhile_number m s stopS, ← takeWhile_number n t stopT, same]
  rw [numbers, List.append_cancel_left_eq] at same
  exact ⟨toString_inj m n numbers, same⟩

/-! ### Names -/

theorem boolDigit_inj (a b : Bool) (same : (boolDigit a).toList = (boolDigit b).toList) : a = b := by
  cases a <;> cases b <;> first | rfl | exact absurd same (by decide)

section names
variable (w d a w' d' a' : Nat) (b c b' c' : Bool)

theorem gate_name (type : GateType)
    (same : type.getString ++ "_" ++ toString w = type.getString ++ "_" ++ toString w') : w = w' := by
  have lists := congrArg String.toList same
  simp only [String.toList_append, List.append_cancel_left_eq] at lists
  exact toString_inj _ _ lists

theorem width_name (head : String) (same : head ++ toString w = head ++ toString w') : w = w' := by
  have lists := congrArg String.toList same
  simp only [String.toList_append, List.append_cancel_left_eq] at lists
  exact toString_inj _ _ lists

theorem tableSelect_name (same : NLDB0.designName (.tableSelect w d a) = NLDB0.designName (.tableSelect w' d' a')) :
    w = w' ∧ d = d' ∧ a = a' := by
  change "naja_table_select__w" ++ toString w ++ "_d" ++ toString d ++ "_a" ++ toString a =
    "naja_table_select__w" ++ toString w' ++ "_d" ++ toString d' ++ "_a" ++ toString a' at same
  have lists := congrArg String.toList same
  simp only [String.toList_append, List.append_assoc, List.append_cancel_left_eq] at lists
  obtain ⟨rfl, rest⟩ := number_append _ _ _ _ (by simp) (by simp) lists
  simp only [List.append_cancel_left_eq] at rest
  obtain ⟨rfl, last⟩ := number_append _ _ _ _ (by simp) (by simp) rest
  simp only [List.append_cancel_left_eq] at last
  exact ⟨rfl, rfl, toString_inj _ _ last⟩

theorem shift_name (same : NLDB0.designName (.shift w d b c) = NLDB0.designName (.shift w' d' b' c')) :
    w = w' ∧ d = d' ∧ b = b' ∧ c = c' := by
  change "naja_shift__w" ++ toString w ++ "_c" ++ toString d ++ "_r" ++ boolDigit b ++ "_a" ++ boolDigit c =
    "naja_shift__w" ++ toString w' ++ "_c" ++ toString d' ++ "_r" ++ boolDigit b' ++ "_a" ++ boolDigit c' at same
  have lists := congrArg String.toList same
  simp only [String.toList_append, List.append_assoc, List.append_cancel_left_eq] at lists
  obtain ⟨rfl, rest⟩ := number_append _ _ _ _ (by simp) (by simp) lists
  simp only [List.append_cancel_left_eq] at rest
  obtain ⟨rfl, last⟩ := number_append _ _ _ _ (by simp) (by simp) rest
  have bits : b = b' ∧ c = c' := by
    clear same
    revert last
    cases b <;> cases b' <;> cases c <;> cases c' <;> simp [boolDigit]
  exact ⟨rfl, rfl, bits⟩

/-- A vector primitive: three numbers and a flag. -/
theorem vector_name (head tag : String) (tagged : ∀ c ∈ tag.toList.head?, c.isDigit = false) (some_ : tag.toList ≠ [])
    (same : head ++ toString w ++ tag ++ toString d ++ "_a" ++ toString a ++ "_s" ++ boolDigit b =
      head ++ toString w' ++ tag ++ toString d' ++ "_a" ++ toString a' ++ "_s" ++ boolDigit b') :
    w = w' ∧ d = d' ∧ a = a' ∧ b = b' := by
  have lists := congrArg String.toList same
  simp only [String.toList_append, List.append_assoc, List.append_cancel_left_eq] at lists
  have stops (rest : List Char) : ∀ c ∈ (tag.toList ++ rest).head?, c.isDigit = false := by
    rw [List.head?_append_of_ne_nil _ some_]
    exact tagged
  obtain ⟨rfl, rest⟩ := number_append _ _ _ _ (stops _) (stops _) lists
  simp only [List.append_cancel_left_eq] at rest
  obtain ⟨rfl, address⟩ := number_append _ _ _ _ (by simp) (by simp) rest
  simp only [List.append_cancel_left_eq] at address
  obtain ⟨rfl, flag⟩ := number_append _ _ _ _ (by simp) (by simp) address
  simp only [List.append_cancel_left_eq] at flag
  exact ⟨rfl, rfl, rfl, boolDigit_inj _ _ flag⟩

end names

theorem memory_name (m m' : MemorySignature) (same : Request.memoryName m = Request.memoryName m') : m = m' := by
  obtain ⟨w, d, a, r, p, reset, clocks, sized⟩ := m
  obtain ⟨w', d', a', r', p', reset', clocks', sized'⟩ := m'
  have lists : (Request.memoryName ⟨w, d, a, r, p, reset, clocks, sized⟩).toList =
      (Request.memoryName ⟨w', d', a', r', p', reset', clocks', sized'⟩).toList := congrArg String.toList same
  unfold Request.memoryName at lists
  simp only [String.toList_append, List.append_assoc, List.append_cancel_left_eq] at lists
  obtain ⟨rfl, depth⟩ := number_append _ _ _ _ (by simp) (by simp) lists
  simp only [List.append_cancel_left_eq] at depth
  obtain ⟨rfl, address⟩ := number_append _ _ _ _ (by simp) (by simp) depth
  simp only [List.append_cancel_left_eq] at address
  obtain ⟨rfl, reads⟩ := number_append _ _ _ _ (by simp) (by simp) address
  simp only [List.append_cancel_left_eq] at reads
  obtain ⟨rfl, writes⟩ := number_append _ _ _ _ (by simp) (by simp) reads
  simp only [List.append_cancel_left_eq] at writes
  obtain ⟨rfl, last⟩ := number_append _ _ _ _ (by simp) (by simp) writes
  have modes : reset = reset' ∧ clocks = clocks' := by
    clear same
    revert last
    cases reset <;> cases reset' <;> cases clocks <;> cases clocks' <;> simp [MemoryResetMode.suffix]
  obtain ⟨rfl, rfl⟩ := modes
  rfl

/-! ### One library, one family -/

/-- What the requests of a library are. -/
def Library.Holds : Library → Request → Prop
  | .Root, x => x = .word .fa
  | .Assign, x => x = .word .assign
  | .Mux2, x => ∃ width, x = .word (.mux2 width)
  | .TableSelect, x => ∃ width depth abits, x = .word (.tableSelect width depth abits)
  | .Add, x => ∃ width, x = .word (.addSub width false)
  | .Subtract, x => ∃ width, x = .word (.addSub width true)
  | .Multiply, x => ∃ width, x = .word (.multiply width)
  | .DivModUnsigned, x => ∃ width, x = .word (.divMod width false)
  | .DivModSigned, x => ∃ width, x = .word (.divMod width true)
  | .Shift, x => ∃ width countWidth right arithmetic, x = .word (.shift width countWidth right arithmetic)
  | .Memory, x => ∃ m, x = .memory m
  | .Sequential family, x => ∃ width, x = .sequential family width
  | .VectorUpdate, x => ∃ width updateWidth abits isSigned, x = .word (.vectorUpdate width updateWidth abits isSigned)
  | .VectorSelect, x => ∃ width selectWidth abits isSigned, x = .word (.vectorSelect width selectWidth abits isSigned)
  | .Gate type, x =>
      (type.isNInput = true ∧ ∃ nbInputs, x = .word (.nInputGate type nbInputs)) ∨
        (type.isNOutput = true ∧ ∃ nbOutputs, x = .word (.nOutputGate type nbOutputs))

theorem holds_library (x : Request) (accepted : x.accepted = true) : x.library.Holds x := by
  cases x with
  | sequential family width => exact ⟨width, rfl⟩
  | memory m => exact ⟨m, rfl⟩
  | word signature =>
      cases signature with
      | assign => rfl
      | fa => rfl
      | nInputGate type nbInputs =>
          refine Or.inl ⟨?_, nbInputs, rfl⟩
          cases type <;> first | rfl | exact absurd accepted (by simp [Request.accepted, NLDB0.checkSignature, GateType.isNInput, Except.isOk, Except.toBool])
      | nOutputGate type nbOutputs =>
          refine Or.inr ⟨?_, nbOutputs, rfl⟩
          cases type <;> first | rfl | exact absurd accepted (by simp [Request.accepted, NLDB0.checkSignature, GateType.isNOutput, Except.isOk, Except.toBool])
      | mux2 width => exact ⟨width, rfl⟩
      | tableSelect width depth abits => exact ⟨width, depth, abits, rfl⟩
      | divMod width isSigned => cases isSigned <;> exact ⟨width, rfl⟩
      | addSub width subtract => cases subtract <;> exact ⟨width, rfl⟩
      | multiply width => exact ⟨width, rfl⟩
      | shift width countWidth right arithmetic => exact ⟨width, countWidth, right, arithmetic, rfl⟩
      | vectorSelect width selectWidth abits isSigned => exact ⟨width, selectWidth, abits, isSigned, rfl⟩
      | vectorUpdate width updateWidth abits isSigned => exact ⟨width, updateWidth, abits, isSigned, rfl⟩

theorem sequential_name (family : Sequential) (w w' : Nat)
    (same : (Request.sequential family w).designName = (Request.sequential family w').designName) : w = w' := by
  have longer (n : Nat) : family.name ≠ family.name ++ "__w" ++ toString n := by
    intro equal
    have lists := congrArg String.toList equal
    simp [String.toList_append] at lists
  unfold Request.designName at same
  simp only at same
  split at same
  · next scalar =>
      split at same
      · next scalar' => exact scalar.trans scalar'.symm
      · exact absurd same (longer w')
  · split at same
    · exact absurd same.symm (longer w)
    · exact width_name w w' (family.name ++ "__w") same

/-- In a library a name tells its signature. -/
theorem designName_injective (x y : Request) (acceptedX : x.accepted = true) (acceptedY : y.accepted = true)
    (library : x.library = y.library) (same : x.designName = y.designName) : x = y := by
  have inX := holds_library x acceptedX
  have inY := holds_library y acceptedY
  rw [library] at inX
  generalize y.library = l at inX inY
  cases l with
  | Root => exact inX.trans inY.symm
  | Assign => exact inX.trans inY.symm
  | Mux2 =>
      obtain ⟨w, rfl⟩ := inX
      obtain ⟨w', rfl⟩ := inY
      rw [width_name w w' "naja_mux2__w" same]
  | TableSelect =>
      obtain ⟨w, d, a, rfl⟩ := inX
      obtain ⟨w', d', a', rfl⟩ := inY
      obtain ⟨rfl, rfl, rfl⟩ := tableSelect_name w d a w' d' a' same
      rfl
  | Add =>
      obtain ⟨w, rfl⟩ := inX
      obtain ⟨w', rfl⟩ := inY
      rw [width_name w w' ("naja_add" ++ "__w") same]
  | Subtract =>
      obtain ⟨w, rfl⟩ := inX
      obtain ⟨w', rfl⟩ := inY
      rw [width_name w w' ("naja_sub" ++ "__w") same]
  | Multiply =>
      obtain ⟨w, rfl⟩ := inX
      obtain ⟨w', rfl⟩ := inY
      rw [width_name w w' "naja_mul__w" same]
  | DivModUnsigned =>
      obtain ⟨w, rfl⟩ := inX
      obtain ⟨w', rfl⟩ := inY
      rw [width_name w w' ("naja_divmod__" ++ "u" ++ "_w") same]
  | DivModSigned =>
      obtain ⟨w, rfl⟩ := inX
      obtain ⟨w', rfl⟩ := inY
      rw [width_name w w' ("naja_divmod__" ++ "s" ++ "_w") same]
  | Shift =>
      obtain ⟨w, d, b, c, rfl⟩ := inX
      obtain ⟨w', d', b', c', rfl⟩ := inY
      obtain ⟨rfl, rfl, rfl, rfl⟩ := shift_name w d w' d' b c b' c' same
      rfl
  | Memory =>
      obtain ⟨m, rfl⟩ := inX
      obtain ⟨m', rfl⟩ := inY
      rw [memory_name m m' same]
  | Sequential family =>
      obtain ⟨w, rfl⟩ := inX
      obtain ⟨w', rfl⟩ := inY
      rw [sequential_name family w w' same]
  | VectorUpdate =>
      obtain ⟨w, d, a, b, rfl⟩ := inX
      obtain ⟨w', d', a', b', rfl⟩ := inY
      obtain ⟨rfl, rfl, rfl, rfl⟩ :=
        vector_name w d a w' d' a' b b' "naja_vector_update__w" "_u" (by simp) (by simp) same
      rfl
  | VectorSelect =>
      obtain ⟨w, d, a, b, rfl⟩ := inX
      obtain ⟨w', d', a', b', rfl⟩ := inY
      obtain ⟨rfl, rfl, rfl, rfl⟩ :=
        vector_name w d a w' d' a' b b' "naja_vector_select__w" "_r" (by simp) (by simp) same
      rfl
  | Gate type =>
      rcases inX with ⟨input, n, rfl⟩ | ⟨output, n, rfl⟩
      · rcases inY with ⟨-, n', rfl⟩ | ⟨output, -⟩
        · rw [gate_name n n' type same]
        · cases type <;> contradiction
      · rcases inY with ⟨input, -⟩ | ⟨-, n', rfl⟩
        · cases type <;> contradiction
        · rw [gate_name n n' type same]

theorem designName_nonempty (x : Request) : x.designName ≠ "" := by
  have appended (head : String) (rest : String) (text : head ≠ "") : head ++ rest ≠ "" := by
    intro empty
    have lists : (head ++ rest).toList = [] := congrArg String.toList empty
    rw [String.toList_append, List.append_eq_nil_iff] at lists
    exact text (String.toList_injective lists.1)
  cases x with
  | sequential family width =>
      unfold Request.designName
      simp only
      have named : family.name ≠ "" := by cases family <;> decide
      split
      · exact named
      · exact appended _ _ (appended _ _ named)
  | memory m =>
      unfold Request.designName Request.memoryName
      simp only [String.append_assoc]
      exact appended _ _ (by decide)
  | word signature =>
      change NLDB0.designName signature ≠ ""
      unfold NLDB0.designName
      split
      · decide
      · decide
      · next type _ => cases type <;> exact appended _ _ (appended _ _ (by decide))
      · next type _ => cases type <;> exact appended _ _ (appended _ _ (by decide))
      · exact appended _ _ (by decide)
      · simp only [String.append_assoc]
        exact appended _ _ (by decide)
      · simp only [String.append_assoc]
        exact appended _ _ (by decide)
      · split <;> exact appended _ _ (appended _ _ (by decide))
      · exact appended _ _ (by decide)
      · simp only [String.append_assoc]
        exact appended _ _ (by decide)
      · simp only [String.append_assoc]
        exact appended _ _ (by decide)
      · simp only [String.append_assoc]
        exact appended _ _ (by decide)

/-! ### Parameters -/

theorem stoull_toString (n : Nat) (small : n ≤ maxSize) : stoull (toString n) = some n := by
  have digits := toList_toString n
  have some_ : Nat.toDigits 10 n ≠ [] := Nat.toDigits_ne_nil
  obtain ⟨c, rest, shape⟩ := List.exists_cons_of_ne_nil some_
  have digit : c.isDigit := by
    have member : c ∈ Nat.toDigits 10 n := by
      rw [shape]
      exact List.mem_cons_self
    exact Nat.isDigit_of_mem_toDigits (by decide) (by decide) member
  have value : digitsValue (c :: rest) = some n := by
    have all := takeWhile_number n [] (by simp)
    rw [List.append_nil, digits, shape] at all
    have number : Nat.ofDigitChars 10 (c :: rest) 0 = n := by
      rw [← shape]
      exact Nat.ofDigitChars_ten_toDigits
    unfold digitsValue
    simp only [all, number, List.isEmpty_cons, Bool.false_eq_true, if_false]
    exact if_pos small
  have noSpace : isSpace c = false := by
    unfold Char.isDigit at digit
    simp only [Bool.and_eq_true, decide_eq_true_eq] at digit
    have low : 48 ≤ c.toNat := UInt32.le_iff_toNat_le.mp digit.1
    unfold isSpace
    rw [Bool.or_eq_false_iff]
    constructor
    · rw [beq_eq_false_iff_ne]
      rintro rfl
      exact absurd low (by decide)
    · rw [Bool.and_eq_false_iff]
      refine Or.inr (decide_eq_false ?_)
      omega
  unfold stoull
  rw [digits, shape, List.dropWhile_cons_of_neg (by simp [noSpace])]
  split
  · next same =>
      cases same
      exact absurd digit (by decide)
  · next same =>
      cases same
      exact absurd digit (by decide)
  · exact value

theorem parseBoolean_boolDigit (b : Bool) : parseBoolean (boolDigit b) = some b := by
  cases b <;> decide

theorem ofID_id (l : Library) : Library.ofID l.id = some l := by
  cases l with
  | Sequential family => cases family <;> decide
  | Gate type => cases type <;> decide
  | _ => decide

end Naja.Primitives.DB0
