import Naja.GateReduction.Replace

/-! The replacement keeps the function exactly when the kept inputs are the first ones
the loop comes to: what the loop does is known from the terminals before the output,
and the table of the primitive is the table of the instance with its constants. -/

namespace Naja.GateReduction
open TruthTable TruthTable.SNLTruthTable TruthTable.BitDependencies
open Restriction
open Naja.Primitives.PinRoles (rowIndex evaluate)

/-! ### The reduced table -/

theorem keys_indexedFrom (start : Nat) (known : List (Option Bool)) :
    List.Sublist ((indexedFrom start known).map Prod.fst) (List.range' start known.length) := by
  induction known generalizing start with
  | nil => exact List.Sublist.refl _
  | cons constant rest ih =>
      rw [List.length_cons, List.range'_succ]
      cases constant with
      | none => exact (ih (start + 1)).cons start
      | some value => exact (ih (start + 1)).cons_cons start

theorem fixes_indexedFrom (known : List (Option Bool)) : Fixes (List.range known.length) (indexedFrom 0 known) := by
  have keys := keys_indexedFrom 0 known
  rw [← List.range_eq_range'] at keys
  exact ⟨List.nodup_range.sublist keys, fun c mem => keys.subset (List.mem_map_of_mem mem)⟩

theorem knownAt_indexedFrom (known : List (Option Bool)) : knownAt (List.range known.length) (indexedFrom 0 known) = known := by
  calc
    knownAt (List.range known.length) (indexedFrom 0 known) = (List.range known.length).map (fun bit => (known[bit]?).join) := by
      refine List.map_congr_left (fun bit _ => ?_)
      exact (find_indexedFrom 0 bit known).trans (by rw [if_pos (Nat.zero_le _), Nat.sub_zero])
    _ = known := map_range_join known

/-- The table over its own inputs has the same function. -/
theorem withLocalDependencies_function (t base : SNLTruthTable) (kind : RowsOrGate t)
    (built : withLocalDependencies t = .ok base) :
    RowsOrGate base ∧ base.size = t.size ∧ ∀ inputs, inputs.length = t.size → evaluate base inputs = evaluate t inputs := by
  obtain ⟨ofRows, ofGate⟩ := withLocalDependencies_spec t base built
  rcases kind with ⟨explicit, small⟩ | ⟨gate, bound⟩
  · obtain ⟨explicit', size, bits⟩ := ofRows explicit
    refine ⟨Or.inl ⟨explicit', size ▸ small⟩, size, fun inputs length => ?_⟩
    unfold evaluate
    rw [explicit'.type, explicit.type]
    exact congrArg some (bits _ (rowIndex_bound inputs _ length))
  · obtain ⟨gate', size, type⟩ := ofGate gate bound
    refine ⟨Or.inr ⟨gate', size ▸ bound⟩, size, fun inputs _ => ?_⟩
    rw [evaluate_gate base gate'.type, evaluate_gate t gate.type, type]

/-- The reduced table stands for the function of the inputs that are left. -/
theorem reduceTruthTable_denotes (ids : List Nat) (t g : SNLTruthTable) (known : List (Option Bool)) (kind : RowsOrGate t)
    (distinct : ids.Nodup) (length : ids.length = known.length) (size : t.size = known.length)
    (reduced : reduceTruthTable ids t (constantPins ids known) = .ok g) :
    Denotes g (unknowns known) (fun free => tableFunction t (fill known free)) := by
  obtain ⟨base, built, reduced⟩ := (Registry.bind_eq_ok _ _ _).mp reduced
  obtain ⟨baseKind, baseSize, same⟩ := withLocalDependencies_function t base kind built
  have indexes := map_constantPins (termIndex ids) 0 ids known length
    (fun i id here => by rw [termIndex_of_nodup ids distinct i id here, Nat.zero_add])
  rw [indexes] at reduced
  have simple : isSimple base.dependencies = true := by
    by_contra sparse
    unfold getReducedWithConstants at reduced
    rw [if_pos (by simpa using sparse)] at reduced
    cases reduced
  have own : Denotes base known.length (tableFunction base) :=
    .table baseKind simple (baseSize.trans size) (fun inputs _ => evaluate_rowsOrGate base baseKind inputs)
  obtain ⟨r, isReduced, denotes⟩ := own.reduce base _ _ (indexedFrom 0 known) (fixes_indexedFrom known)
  cases isReduced.symm.trans reduced
  have count : known.length - (indexedFrom 0 known).length = unknowns known := by
    have constants := congrArg List.length (snd_indexedFrom 0 known)
    rw [List.length_map] at constants
    have total := unknowns_add_length known
    omega
  rw [count] at denotes
  refine denotes.congr g _ _ _ (fun free enough => ?_)
  rw [cofactor, knownAt_indexedFrom]
  have filled : (fill known free).length = t.size := (length_fill known free enough).trans size.symm
  rw [tableFunction, same _ filled]
  rfl

theorem smallerGate_shape (n : Nat) (type : GenericType) (inverted : Bool) (isGate : type ∈ gateTypes) (bound : n < 2 ^ 32)
    (r : SNLTruthTable) (built : smallerGate n type inverted = .ok r) : RowsOrGate r ∧ (r.size = n ∨ r.size = 0) := by
  have explicit (t : SNLTruthTable) (isTable : t = Logic0 ∨ t = Logic1 ∨ t = SNLTruthTable.Inv ∨ t = Buf) : RowsOrGate t := by
    rcases isTable with rfl | rfl | rfl | rfl <;> exact Or.inl ⟨⟨rfl, rfl⟩, by decide⟩
  unfold smallerGate at built
  split at built
  · cases built
    cases inverted
    · exact ⟨explicit _ (.inl rfl), .inr rfl⟩
    · exact ⟨explicit _ (.inr (.inl rfl)), .inr rfl⟩
  split at built
  · next one =>
      cases built
      cases inverted
      · exact ⟨explicit _ (.inr (.inr (.inr rfl))), .inl one.symm⟩
      · exact ⟨explicit _ (.inr (.inr (.inl rfl))), .inl one.symm⟩
  · obtain ⟨-, -, width⟩ := ofGeneric_noRows n type (fullDependencies n) 0 0 r built
    exact ⟨(Built.gate n type _ r isGate built).rowsOrGate, .inl (width.trans (Nat.mod_eq_of_lt bound))⟩

theorem reduceRows_shape (t : SNLTruthTable) (idxConsts : ConstantInputs) (n : Nat) (r : SNLTruthTable)
    (built : reduceRows t idxConsts n = .ok r) : RowsOrGate r ∧ (r.size = n ∨ r.size = 0) := by
  have shape (out : SNLTruthTable) (isTable : Built out) (size : out.size = n)
      (isOut : (if out.all0 then Logic0 else if out.all1 then Logic1 else out) = r) :
      RowsOrGate r ∧ (r.size = n ∨ r.size = 0) := by
    rw [← isOut]
    split
    · exact ⟨Or.inl ⟨⟨rfl, rfl⟩, by decide⟩, .inr rfl⟩
    split
    · exact ⟨Or.inl ⟨⟨rfl, rfl⟩, by decide⟩, .inr rfl⟩
    · exact ⟨isTable.rowsOrGate, .inl size⟩
  unfold reduceRows at built
  simp only at built
  split at built
  · obtain ⟨out, isOut, built⟩ := (Registry.bind_eq_ok _ _ _).mp built
    have size : out.size = n := by
      obtain ⟨_, _, _, isTable⟩ := ofVector_spec n _ _ out isOut
      rw [isTable]
    exact shape out (.vector n _ _ out isOut) size (Except.ok.inj built)
  · obtain ⟨out, isOut, built⟩ := (Registry.bind_eq_ok _ _ _).mp built
    have size : out.size = n := by
      obtain ⟨_, _, _, isTable⟩ := ofMask_spec n _ _ out isOut
      rw [isTable]
    exact shape out (.mask n _ _ out isOut) size (Except.ok.inj built)

/-- What is left has the inputs that are not constant, or none. -/
theorem getReducedWithConstants_shape (t : SNLTruthTable) (kind : RowsOrGate t) (idxConsts : ConstantInputs)
    (r : SNLTruthTable) (reduced : t.getReducedWithConstants idxConsts = .ok r) :
    RowsOrGate r ∧ (r.size = t.size - idxConsts.length ∨ r.size = 0) := by
  have constant (value : Bool) : RowsOrGate (constantTable value) ∧
      ((constantTable value).size = t.size - idxConsts.length ∨ (constantTable value).size = 0) := by
    cases value <;> exact ⟨Or.inl ⟨⟨rfl, rfl⟩, by decide⟩, .inr rfl⟩
  have bound : t.size - idxConsts.length < 2 ^ 32 := by
    rcases kind with ⟨-, small⟩ | ⟨-, small⟩ <;> omega
  have gate (type : GenericType) (inverted : Bool) (isGate : type ∈ gateTypes)
      (built : smallerGate (t.size - idxConsts.length) type inverted = .ok r) :=
    smallerGate_shape _ type inverted isGate bound r built
  unfold getReducedWithConstants at reduced
  split at reduced
  · cases reduced
  split at reduced
  · next empty =>
      cases reduced
      exact ⟨kind, .inr empty⟩
  split at reduced
  · next nothing =>
      cases reduced
      rw [List.isEmpty_iff.mp nothing]
      exact ⟨kind, .inl rfl⟩
  split at reduced
  · cases reduced
  rcases kind with ⟨rows, -⟩ | ⟨isGate, -⟩
  · rw [rows.type] at reduced
    exact reduceRows_shape t idxConsts _ r reduced
  · have type := isGate.type
    simp only [List.mem_cons, List.not_mem_nil, or_false] at type
    rcases type with type | type | type | type | type | type <;> rw [type] at reduced <;> simp only at reduced
    · split at reduced
      · cases reduced
        exact constant false
      split at reduced
      · cases reduced
        exact constant true
      · exact gate .AND false (by decide) reduced
    · split at reduced
      · cases reduced
        exact constant true
      split at reduced
      · cases reduced
        exact constant false
      · exact gate .NAND true (by decide) reduced
    · split at reduced
      · cases reduced
        exact constant true
      · exact gate .OR false (by decide) reduced
    · split at reduced
      · cases reduced
        exact constant false
      · exact gate .NOR true (by decide) reduced
    · exact gate _ _ (by split <;> decide) reduced
    · exact gate _ _ (by split <;> decide) reduced

theorem count_constantPins (ids : List Nat) (known : List (Option Bool)) (length : ids.length = known.length) :
    known.length - (constantPins ids known).length = unknowns known := by
  have constants := congrArg List.length (snd_constantPins ids known length)
  rw [List.length_map] at constants
  have total := unknowns_add_length known
  omega

theorem reduceTruthTable_shape (ids : List Nat) (t g : SNLTruthTable) (known : List (Option Bool)) (kind : RowsOrGate t)
    (length : ids.length = known.length) (size : t.size = known.length)
    (reduced : reduceTruthTable ids t (constantPins ids known) = .ok g) :
    RowsOrGate g ∧ (g.size = unknowns known ∨ g.size = 0) := by
  obtain ⟨base, built, reduced⟩ := (Registry.bind_eq_ok _ _ _).mp reduced
  obtain ⟨baseKind, baseSize, -⟩ := withLocalDependencies_function t base kind built
  have shape := getReducedWithConstants_shape base baseKind _ g reduced
  rw [List.length_map, baseSize, size, count_constantPins ids known length] at shape
  exact shape

/-! ### The nets that are kept -/

section nets
variable (instance_ : Instance) (known : List (Option Bool))

theorem zipIdx_eraseIdx {α : Type} (l : List α) (start v : Nat) :
    ((l.zipIdx start).filter (fun e => !List.contains [start + v] e.2)).map Prod.fst = l.eraseIdx v := by
  induction l generalizing start v with
  | nil => rfl
  | cons a l ih =>
      rw [List.zipIdx_cons]
      cases v with
      | zero =>
          have rest : (l.zipIdx (start + 1)).filter (fun e => !List.contains [start + 0] e.2) = l.zipIdx (start + 1) := by
            refine List.filter_eq_self.mpr (fun e mem => ?_)
            have above := List.le_snd_of_mem_zipIdx mem
            simp
            omega
          rw [List.filter_cons_of_neg (by simp), rest, List.eraseIdx_cons_zero]
          exact List.zipIdx_map_fst _ _
      | succ v =>
          rw [List.filter_cons_of_pos (by simp), List.map_cons, List.eraseIdx_cons_succ,
            show start + (v + 1) = start + 1 + v by omega, ih]

theorem keptNets_nil : keptNets instance_ known [] = remainingNets instance_ known := by
  have all : (remainingNets instance_ known).zipIdx.filter (fun net => !([] : List Nat).contains net.2) =
      (remainingNets instance_ known).zipIdx := List.filter_eq_self.mpr (fun _ _ => rfl)
  rw [keptNets, all]
  exact List.zipIdx_map_fst _ _

theorem keptNets_one (v : Nat) : keptNets instance_ known [v] = (remainingNets instance_ known).eraseIdx v := by
  have erased := zipIdx_eraseIdx (remainingNets instance_ known) 0 v
  rw [Nat.zero_add] at erased
  exact erased

theorem length_remaining (pins : List Pin) (known : List (Option Bool)) (length : known.length = pins.length) :
    ((pins.zip known).filter (fun pin => pin.2.isNone)).length = unknowns known := by
  induction pins generalizing known with
  | nil =>
      rw [List.length_eq_zero_iff.mp length]
      rfl
  | cons pin pins ih =>
      cases known with
      | nil => cases length
      | cons entry known =>
          have count := ih known (Nat.succ.inj length)
          rw [List.zip_cons_cons]
          cases entry with
          | none =>
              rw [List.filter_cons_of_pos rfl, unknowns_none, List.length_cons, count]
          | some value =>
              rw [List.filter_cons_of_neg (by simp), unknowns_some, count]

/-- The values of the remaining nets fill up the constants. -/
theorem fill_remaining (pins : List Pin) (known : List (Option Bool)) (length : known.length = pins.length)
    (σ : Option BitNet → Bool) (respects : ∀ pin ∈ pins.zip known, ∀ value, pin.2 = some value → σ pin.1.net = value) :
    fill known ((((pins.zip known).filter (fun pin => pin.2.isNone)).map (fun pin => pin.1.net)).map σ) =
      pins.map (fun pin => σ pin.net) := by
  induction pins generalizing known with
  | nil =>
      rw [List.length_eq_zero_iff.mp length]
      rfl
  | cons pin pins ih =>
      cases known with
      | nil => cases length
      | cons entry known =>
          have filled := ih known (Nat.succ.inj length) (fun pin mem => respects pin (List.mem_cons_of_mem _ mem))
          rw [List.zip_cons_cons]
          cases entry with
          | none =>
              rw [List.filter_cons_of_pos rfl]
              exact congrArg (σ pin.net :: ·) filled
          | some value =>
              have isValue := respects (pin, some value) List.mem_cons_self value rfl
              rw [List.filter_cons_of_neg (by simp)]
              change value :: fill known _ = σ pin.net :: pins.map _
              rw [filled, isValue]

end nets

/-! ### The loop -/

section loop
variable (indexes : List Nat) (reducedInputs : Nat)

/-- The nets the loop connects, from a count on, while there are inputs to connect. -/
def passedFrom (originNonConstantIndex : Nat) : List (Option BitNet) → List BitNet
  | [] => []
  | none :: _ => []
  | some bitNet :: rest =>
      if bitNet.isConstant0 || bitNet.isConstant1 then passedFrom originNonConstantIndex rest
      else if indexes.contains (originNonConstantIndex + 1) then passedFrom (originNonConstantIndex + 1) rest
      else bitNet :: passedFrom (originNonConstantIndex + 1) rest

theorem passedFrom_eq (count : Nat) (nets : List (Option BitNet)) : passedFrom indexes count nets =
    (((((nets.takeWhile Option.isSome).filterMap id).filter (fun net => !(net.isConstant0 || net.isConstant1))).zipIdx
      (count + 1)).filter (fun net => !indexes.contains net.2)).map Prod.fst := by
  induction nets generalizing count with
  | nil => rfl
  | cons net nets ih =>
      cases net with
      | none => rfl
      | some bitNet =>
          rw [passedFrom, List.takeWhile_cons_of_pos rfl, List.filterMap_cons_some (f := id) rfl]
          by_cases constant : (bitNet.isConstant0 || bitNet.isConstant1) = true
          · rw [if_pos constant, List.filter_cons_of_neg (by rw [constant]; exact Bool.false_ne_true), ih]
          · rw [if_neg constant, List.filter_cons_of_pos (by simpa using constant), List.zipIdx_cons]
            by_cases listed : indexes.contains (count + 1) = true
            · rw [if_pos listed, List.filter_cons_of_neg (by rw [listed]; exact Bool.false_ne_true), ih]
            · rw [if_neg listed, List.filter_cons_of_pos (by simpa using listed), List.map_cons, ih]

/-- The loop disconnects connected terminals, up to where it ends. -/
theorem connectTerms_suffix (terms : List InstTerm) (count : Nat) (connected nets : List BitNet) (rest : List InstTerm)
    (ends : connectTerms indexes reducedInputs terms count connected = .ok (nets, rest)) :
    ∃ done, terms = done ++ rest ∧ (terms ≠ [] → done ≠ []) ∧ ∀ term ∈ done, term.net.isSome = true := by
  induction terms generalizing count connected with
  | nil =>
      cases ends
      exact ⟨[], rfl, id, nofun⟩
  | cons term terms ih =>
      unfold connectTerms at ends
      cases isNet : term.net with
      | none =>
          rw [isNet] at ends
          cases ends
      | some bitNet =>
          have isSome : term.net.isSome = true := by rw [isNet]; rfl
          have next (later : ∃ done, terms = done ++ rest ∧ (terms ≠ [] → done ≠ []) ∧
              ∀ term ∈ done, term.net.isSome = true) : ∃ done, term :: terms = done ++ rest ∧
              (term :: terms ≠ [] → done ≠ []) ∧ ∀ term ∈ done, term.net.isSome = true := by
            obtain ⟨done, split, -, all⟩ := later
            exact ⟨term :: done, congrArg (term :: ·) split, fun _ => List.cons_ne_nil _ _,
              List.forall_mem_cons.mpr ⟨isSome, all⟩⟩
          rw [isNet] at ends
          simp only at ends
          by_cases passed : (bitNet.isConstant0 || bitNet.isConstant1 || reducedInputs == 0) = true
          · rw [if_pos passed] at ends
            exact next (ih _ _ ends)
          rw [if_neg passed] at ends
          by_cases listed : indexes.contains (count + 1) = true
          · rw [if_pos listed] at ends
            exact next (ih _ _ ends)
          rw [if_neg listed] at ends
          by_cases full : connected.length + 1 = reducedInputs
          · rw [if_pos full] at ends
            cases ends
            exact ⟨[term], rfl, fun _ => List.cons_ne_nil _ _, List.forall_mem_singleton.mpr isSome⟩
          · rw [if_neg full] at ends
            exact next (ih _ _ ends)

/-- Without inputs the loop does not end before the terminals do. -/
theorem connectTerms_noInputs (terms : List InstTerm) (count : Nat) (connected nets : List BitNet) (rest : List InstTerm)
    (ends : connectTerms indexes 0 terms count connected = .ok (nets, rest)) : rest = [] := by
  induction terms with
  | nil =>
      cases ends
      rfl
  | cons term terms ih =>
      unfold connectTerms at ends
      cases isNet : term.net with
      | none =>
          rw [isNet] at ends
          cases ends
      | some bitNet =>
          rw [isNet] at ends
          simp only [beq_self_eq_true, Bool.or_true, if_true] at ends
          exact ih ends

/-- With enough nets among the first pins the loop ends there, with those; else it comes to what follows. -/
theorem connectTerms_pins (pins : List Pin) (tail : List InstTerm) (count : Nat) (connected : List BitNet)
    (room : connected.length < reducedInputs) :
    (reducedInputs ≤ connected.length + (passedFrom indexes count (pins.map Pin.net)).length →
      ∃ rest, connectTerms indexes reducedInputs (pins.map .input ++ tail) count connected =
        .ok (connected ++ (passedFrom indexes count (pins.map Pin.net)).take (reducedInputs - connected.length),
          rest ++ tail)) ∧
      (connected.length + (passedFrom indexes count (pins.map Pin.net)).length < reducedInputs →
        (∃ e, connectTerms indexes reducedInputs (pins.map .input ++ tail) count connected = .error e) ∨
          ∃ later nets, connectTerms indexes reducedInputs (pins.map .input ++ tail) count connected =
            connectTerms indexes reducedInputs tail later nets) := by
  induction pins generalizing count connected with
  | nil => exact ⟨fun enough => absurd enough (Nat.not_le.mpr room), fun _ => .inr ⟨count, connected, rfl⟩⟩
  | cons pin pins ih =>
      have net : (InstTerm.input pin).net = pin.net := rfl
      rw [List.map_cons, List.map_cons, List.cons_append, connectTerms, net]
      cases isNet : pin.net with
      | none => exact ⟨fun enough => absurd enough (Nat.not_le.mpr room), fun _ => .inl ⟨_, rfl⟩⟩
      | some bitNet =>
          have some_inputs : (reducedInputs == 0) = false := beq_eq_false_iff_ne.mpr (by omega)
          simp only [passedFrom, some_inputs, Bool.or_false]
          by_cases constant : (bitNet.isConstant0 || bitNet.isConstant1) = true
          · rw [if_pos constant, if_pos constant]
            exact ih count connected room
          rw [if_neg constant, if_neg constant]
          by_cases listed : indexes.contains (count + 1) = true
          · rw [if_pos listed, if_pos listed]
            exact ih (count + 1) connected room
          rw [if_neg listed, if_neg listed, List.length_cons]
          by_cases full : connected.length + 1 = reducedInputs
          · rw [if_pos full, show reducedInputs - connected.length = 1 by omega]
            exact ⟨fun _ => ⟨pins.map .input, rfl⟩, fun few => by omega⟩
          · rw [if_neg full, show reducedInputs - connected.length = reducedInputs - (connected.length + 1) + 1 by omega]
            have later := ih (count + 1) (connected ++ [bitNet]) (by rw [List.length_append, List.length_singleton]; omega)
            rw [List.length_append, List.length_singleton, List.append_assoc] at later
            exact ⟨fun enough => later.1 (by omega), fun few => later.2 (by omega)⟩

end loop

/-! ### The replacement -/

section replacement
variable (instance_ : Instance) (indexes : List Nat) (reducedInputs : Nat)

theorem passedNets_eq : passedNets instance_ indexes = passedFrom indexes 0 (instance_.before.map Pin.net) :=
  (passedFrom_eq indexes 0 _).symm

theorem replaceInstance_eq (nets : List BitNet) (rest : List InstTerm)
    (walked : connectTerms indexes reducedInputs instance_.getInstTerms 0 [] = .ok (nets, rest)) :
    replaceInstance instance_ reducedInputs indexes =
      .ok ⟨nets.map some ++ List.replicate (reducedInputs - nets.length) none,
        if rest.any InstTerm.isOutput then instance_.output else none⟩ := by
  rw [replaceInstance, walked]
  rfl

/-- With enough nets before the output, the first ones are connected. -/
theorem replaceInstance_enough (positive : 0 < reducedInputs)
    (enough : reducedInputs ≤ (passedNets instance_ indexes).length) :
    replaceInstance instance_ reducedInputs indexes =
      .ok ⟨((passedNets instance_ indexes).take reducedInputs).map some, instance_.output⟩ := by
  rw [passedNets_eq] at enough ⊢
  obtain ⟨rest, walked⟩ := (connectTerms_pins indexes reducedInputs instance_.before
    (.output instance_.output :: instance_.after.map .input) 0 [] positive).1 (by rw [List.length_nil, Nat.zero_add]; exact enough)
  rw [List.nil_append, List.length_nil, Nat.sub_zero] at walked
  have ahead : (rest ++ InstTerm.output instance_.output :: instance_.after.map .input).any InstTerm.isOutput = true :=
    List.any_eq_true.mpr ⟨_, List.mem_append_right _ List.mem_cons_self, rfl⟩
  rw [replaceInstance_eq instance_ indexes reducedInputs _ _ walked, if_pos ahead, List.length_take, Nat.min_eq_left enough,
    Nat.sub_self, List.replicate_zero, List.append_nil]

/-- The new instance gets the output only when there are. -/
theorem enough_of_output (reduced : Replaced) (replaced : replaceInstance instance_ reducedInputs indexes = .ok reduced)
    (output : reduced.output = instance_.output) :
    0 < reducedInputs ∧ reducedInputs ≤ (passedNets instance_ indexes).length := by
  cases walked : connectTerms indexes reducedInputs instance_.getInstTerms 0 [] with
  | error e =>
      rw [replaceInstance, walked] at replaced
      cases replaced
  | ok result =>
      obtain ⟨nets, rest⟩ := result
      rw [replaceInstance_eq instance_ indexes reducedInputs nets rest walked, Except.ok.injEq] at replaced
      rw [← replaced] at output
      obtain ⟨done, split, -, connected⟩ := connectTerms_suffix indexes reducedInputs _ _ _ _ _ walked
      -- the output is connected if the loop has come to it, and then the new instance has none
      have ahead : ∃ term ∈ rest, term.isOutput = true := by
        by_contra passed
        have noOutput : rest.any InstTerm.isOutput = false := by
          rw [List.any_eq_false]
          exact fun term mem isOutput => passed ⟨term, mem, isOutput⟩
        have isTerm : InstTerm.output instance_.output ∈ done ++ rest :=
          split ▸ List.mem_append_right _ List.mem_cons_self
        rcases List.mem_append.mp isTerm with inDone | inRest
        · have isSome : instance_.output.isSome = true := connected _ inDone
          rw [← output, noOutput] at isSome
          cases isSome
        · exact passed ⟨_, inRest, rfl⟩
      have positive : 0 < reducedInputs := by
        by_contra zero
        rw [Nat.eq_zero_of_not_pos zero] at walked
        rw [connectTerms_noInputs indexes _ _ _ _ _ walked] at ahead
        obtain ⟨term, mem, -⟩ := ahead
        cases mem
      refine ⟨positive, ?_⟩
      by_contra few
      rw [passedNets_eq, Nat.not_le] at few
      rcases (connectTerms_pins indexes reducedInputs instance_.before
        (.output instance_.output :: instance_.after.map .input) 0 [] positive).2
        (by rw [List.length_nil, Nat.zero_add]; exact few) with ⟨e, fails⟩ | ⟨later, nets', comes⟩
      · cases walked.symm.trans fails
      · -- what is left after the output has inputs only
        have after := walked.symm.trans comes
        obtain ⟨done', split', some_done, -⟩ := connectTerms_suffix indexes reducedInputs _ _ _ _ _ after.symm
        obtain ⟨term, mem, isOutput⟩ := ahead
        cases done' with
        | nil => exact absurd rfl (some_done (List.cons_ne_nil _ _))
        | cons first done' =>
            rw [List.cons_append, List.cons.injEq] at split'
            have inAfter : term ∈ instance_.after.map InstTerm.input := split'.2 ▸ List.mem_append_right _ mem
            obtain ⟨pin, -, rfl⟩ := List.mem_map.mp inAfter
            cases isOutput

end replacement

/-! ### The function -/

section function
variable (designs : List Primitive) (truthTables : LibraryTruthTables) (constructed : construct designs = .ok truthTables)
  (instance_ : Instance) (table : SNLTruthTable) (kind : RowsOrGate table) (size : table.size = instance_.inputs.length)
  (known : List (Option Bool)) (lengths : known.length = instance_.inputs.length) (g : SNLTruthTable)
  (reduced : reduceTruthTable (instance_.inputs.map Pin.id) table (constantPins (instance_.inputs.map Pin.id) known) = .ok g)
include kind size lengths reduced

/-- Without two input pins of one ID the constants come to their own pins. -/
theorem reduces_of_distinct (distinct : (instance_.inputs.map Pin.id).Nodup) : Reduces instance_ known table g := by
  intro σ respects
  have denotes := reduceTruthTable_denotes (instance_.inputs.map Pin.id) table g known kind distinct
    (by rw [List.length_map, lengths]) (size.trans lengths.symm) reduced
  have count : ((remainingNets instance_ known).map σ).length = unknowns known := by
    rw [List.length_map, remainingNets, List.length_map]
    exact length_remaining instance_.inputs known lengths
  have filled : fill known ((remainingNets instance_ known).map σ) = instance_.inputs.map (fun pin => σ pin.net) :=
    fill_remaining instance_.inputs known lengths σ respects
  rw [denotes.denotation_eq g _ _ _ count, filled, evaluate_rowsOrGate table kind]

variable (p : Primitive) (indexes : List Nat) (found : getDesignForTruthTable truthTables g = .ok (some (p, indexes)))
include constructed found

/-- The primitive has the function of the reduced table, on the inputs that are kept. -/
theorem keptNets_function (positive : 0 < p.inputs) :
    (keptNets instance_ known indexes).length = p.inputs ∧ ∀ σ,
      evaluate p.table ((keptNets instance_ known indexes).map σ) =
        some ( denotation g ((remainingNets instance_ known).map σ)) := by
  obtain ⟨gKind, gSize⟩ := reduceTruthTable_shape (instance_.inputs.map Pin.id) table g known kind
    (by rw [List.length_map, lengths]) (size.trans lengths.symm) reduced
  have count (some_ : g.size ≠ 0) : (remainingNets instance_ known).length = g.size := by
    rw [gSize.resolve_right some_, remainingNets, List.length_map]
    exact length_remaining instance_.inputs known lengths
  have value (some_ : g.size ≠ 0) (inputs : List Bool) : evaluate g inputs = some ( denotation g inputs) := by
    rw [ denotation, if_neg some_]
    exact evaluate_rowsOrGate g gKind inputs
  rcases getDesignForTruthTable_spec designs truthTables constructed g gKind p indexes found with
    ⟨rfl, pins, same⟩ | ⟨v, rfl, inside, pins, same⟩
  · have some_ : g.size ≠ 0 := by omega
    rw [keptNets_nil]
    refine ⟨(count some_).trans pins.symm, fun σ => ?_⟩
    rw [same _ (by rw [List.length_map, count some_]), value some_]
  · have some_ : g.size ≠ 0 := by omega
    rw [keptNets_one]
    refine ⟨?_, fun σ => ?_⟩
    · rw [List.length_eraseIdx, count some_, if_pos inside]
      omega
    · rw [← List.eraseIdx_map, same _ (by rw [List.length_map, count some_]), value some_]

end function

/-! ### A library of one buffer -/

theorem buffer_kind : (BitData.mask 2).isMask = decide (2 ≤ 64) := rfl

def buffer : Primitive :=
  ⟨{ size := 1, bits := ⟨2, .mask 2, buffer_kind⟩, dependencies := [1] }, Or.inl ⟨⟨rfl, rfl⟩, by decide⟩⟩

theorem construct_buffer : construct [buffer] = .ok [(buffer.table, buffer)] := by
  have canonical : LibraryTables.canonicalizeTruthTableForLookup buffer.table = .ok buffer.table := by decide +kernel
  rw [construct, canonical]
  rfl

def conjunction : SNLTruthTable := { size := 2, bits := ⟨4, .mask 0x8, by decide⟩, dependencies := [3] }

/-- The first input is tied to 1, and the output comes last. -/
def tiedGate : Instance :=
  { before := [⟨0, some ⟨0, .Supply1⟩⟩, ⟨1, some ⟨1, .Standard⟩⟩], output := some ⟨2, .Standard⟩, after := [] }

/-- The conjunction of the first and the last of three inputs. -/
def firstAndLast : SNLTruthTable := { size := 3, bits := ⟨8, .mask 0xa0, by decide⟩, dependencies := [7] }

def tiedInstance : Instance :=
  { before := [⟨0, some ⟨0, .Supply1⟩⟩, ⟨1, some ⟨1, .Standard⟩⟩, ⟨2, some ⟨2, .Standard⟩⟩]
    output := some ⟨3, .Standard⟩
    after := [] }

/-- The table of the inputs that are left does not depend on the first of them. -/
def second : SNLTruthTable := { size := 2, bits := ⟨4, .mask 0xc, by decide⟩, dependencies := [3] }

end Naja.GateReduction
