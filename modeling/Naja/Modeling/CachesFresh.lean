import Naja.Modeling.InstanceCaches
import Naja.Registry.OrderedSet

/-! The caches of tables and sequential models are never stale: whatever is kept for an
instance is what its parameters and the tables of its design give now. -/

namespace Naja.Modeling
open TruthTable Registry

variable {Model : Type}

/-! ### What is current -/

/-- The table of an output of an instance, computed without a cache. -/
def World.currentTruthTable (w : World Model) (i term : Nat) : Except String SNLTruthTable :=
  match (w.instances i).bind (fun x => w.designs[x.model]?.map (fun d => (x, d))) with
  | none => .error "SNLDesignModeling::getTruthTable: null instance"
  | some (x, d) =>
      match d.readOnlyMemory (w.values x) term with
      | some table => table
      | none =>
          match d.modeling.bind (fun m => m.parameterTruthTables.lookup term) with
          | some table => resolveTruthTable (w.values x) table
          | none => d.truthTable term

/-- The model of a table that a list of literals selects. -/
def selectSequentialModel (models : List (List Nat × Model)) (literals : List String) : Except SequentialFailure Model :=
  match sequentialValues literals with
  | .error e => .error e
  | .ok values =>
      match models.lookup values with
      | none => .error (.noMatch values)
      | some model => .ok model

/-- The sequential model of an instance, computed without a cache. -/
def World.currentSequentialModel (w : World Model) (i : Nat) : Except SequentialFailure Model :=
  match (w.instances i).bind (fun x => w.designs[x.model]?.bind (fun d => d.modeling.map (fun m => (x, d, m)))) with
  | none => .error .noModel
  | some (x, d, m) =>
      if m.sequentialModels.isEmpty then
        match m.sequentialModel with
        | none => .error .noModel
        | some model => .ok model
      else
        match sequentialLiterals d (w.values x) m.sequentialParameters with
        | .error e => .error e
        | .ok literals => selectSequentialModel m.sequentialModels literals

/-! ### The invariant -/

/-- The tables a design keeps are those of instances of it, with their parameters of now. -/
def TablesAgree (w : World Model) (design : Nat) (m : SNLDesignModeling Model) : Prop :=
  ∀ i term table, m.instanceTruthTables i term = some table → ∃ x parameterTable,
    w.instances i = some x ∧ x.model = design ∧ m.parameterTruthTables.lookup term = some parameterTable ∧
      resolveTruthTable (w.values x) parameterTable = .ok table

/-- The entries a design keeps are those that the literals kept with them select. -/
def ModelsAgree (m : SNLDesignModeling Model) : Prop :=
  ∀ i cached, m.instanceSequentialModels i = some cached →
    sequentialValues cached.values = .ok cached.entry ∧ (m.sequentialModels.lookup cached.entry).isSome

/-- Every object in the set of an instance is one of that instance. -/
def Owned (w : World Model) : Prop :=
  ∀ i x, w.instances i = some x → ∀ entry ∈ x.instParameters,
    ∃ value, w.instParameters entry.2 = some ⟨i, entry.1, value⟩

structure Fresh (w : World Model) : Prop where
  owned : Owned w
  tables : ∀ (design : Nat) (d : SNLDesign Model) (m : SNLDesignModeling Model), w.designs[design]? = some d → d.modeling = some m → TablesAgree w design m
  models : ∀ (design : Nat) (d : SNLDesign Model) (m : SNLDesignModeling Model), w.designs[design]? = some d → d.modeling = some m → ModelsAgree m

/-! ### Changes of one design -/

namespace World

theorem values_of_objects (w w' : World Model) (x : SNLInstance)
    (same : ∀ entry ∈ x.instParameters, w'.instParameters entry.2 = w.instParameters entry.2) :
    w'.values x = w.values x := by
  unfold values
  apply List.filterMap_congr
  intro entry member
  rw [same entry member]

theorem modified_design {w : World Model} {design k : Nat} {f : SNLDesign Model → SNLDesign Model} {d' : SNLDesign Model}
    (found : (w.designs.modify design f)[k]? = some d') :
    ∃ d, w.designs[k]? = some d ∧ d' = if k = design then f d else d := by
  rw [List.getElem?_modify] at found
  obtain ⟨d, at_, rfl⟩ := Option.map_eq_some_iff.mp found
  refine ⟨d, at_, ?_⟩
  by_cases same : design = k
  · rw [if_pos same, if_pos same.symm]
  · rw [if_neg same, if_neg (Ne.symm same)]

end World

/-- One design gets a new modeling that agrees. -/
theorem Fresh.modify {w w' : World Model} (fresh : Fresh w) (design : Nat) (f : SNLDesign Model → SNLDesign Model)
    (designs : w'.designs = w.designs.modify design f) (instances : w'.instances = w.instances)
    (objects : w'.instParameters = w.instParameters)
    (agrees : ∀ d m, w.designs[design]? = some d → (f d).modeling = some m → TablesAgree w design m ∧ ModelsAgree m) :
    Fresh w' := by
  have values (x : SNLInstance) : w'.values x = w.values x :=
    World.values_of_objects w w' x (fun _ _ => by rw [objects])
  have moved (k : Nat) (m : SNLDesignModeling Model) (given : TablesAgree w k m) : TablesAgree w' k m := by
    intro i term table kept
    obtain ⟨x, parameterTable, alive, model, listed, resolved⟩ := given i term table kept
    refine ⟨x, parameterTable, ?_, model, listed, ?_⟩
    · rw [instances]
      exact alive
    · rw [values]
      exact resolved
  have both (k : Nat) (d : SNLDesign Model) (m : SNLDesignModeling Model) (found : w'.designs[k]? = some d)
      (modeled : d.modeling = some m) : TablesAgree w' k m ∧ ModelsAgree m := by
    rw [designs] at found
    obtain ⟨d₀, before, rfl⟩ := World.modified_design found
    by_cases same : k = design
    · rw [if_pos same] at modeled
      subst same
      obtain ⟨tables, models⟩ := agrees d₀ m before modeled
      exact ⟨moved k m tables, models⟩
    · rw [if_neg same] at modeled
      exact ⟨moved k m (fresh.tables k d₀ m before modeled), fresh.models k d₀ m before modeled⟩
  refine ⟨?_, fun k d m found modeled => (both k d m found modeled).1, fun k d m found modeled => (both k d m found modeled).2⟩
  unfold Owned
  rw [instances, objects]
  exact fresh.owned

/-! ### Changes of one instance -/

theorem forgotten (m : SNLDesignModeling Model) (i : Nat) (models : ModelsAgree m) : ModelsAgree (m.forget i) := by
  intro i' cached kept
  unfold SNLDesignModeling.forget at kept
  by_cases same : i' = i
  · simp [same] at kept
  · simp only [if_neg same] at kept
    exact models i' cached kept

/-- After the caches have been told to forget an instance, they hold nothing for it. -/
theorem Fresh.invalidated {w : World Model} (fresh : Fresh w) (i : Nat) (design : Nat) (d : SNLDesign Model)
    (m : SNLDesignModeling Model) (found : (w.invalidate i).designs[design]? = some d) (modeled : d.modeling = some m) :
    TablesAgree w design m ∧ ModelsAgree m ∧ ∀ term, m.instanceTruthTables i term = none := by
  unfold World.invalidate at found
  cases alive : w.instances i with
  | none =>
      rw [alive] at found
      refine ⟨fresh.tables design d m found modeled, fresh.models design d m found modeled, ?_⟩
      intro term
      cases kept : m.instanceTruthTables i term with
      | none => rfl
      | some table =>
          obtain ⟨x, -, there, -⟩ := fresh.tables design d m found modeled i term table kept
          rw [alive] at there
          cases there
  | some x =>
      rw [alive] at found
      obtain ⟨d₀, before, rfl⟩ := World.modified_design found
      by_cases same : design = x.model
      · rw [if_pos same] at modeled
        obtain ⟨m₀, modeled₀, rfl⟩ := Option.map_eq_some_iff.mp modeled
        refine ⟨?_, forgotten m₀ i (fresh.models design d₀ m₀ before modeled₀), fun term => if_pos rfl⟩
        intro i' term table kept
        unfold SNLDesignModeling.forget at kept
        by_cases own : i' = i
        · simp [own] at kept
        · simp only [if_neg own] at kept
          exact fresh.tables design d₀ m₀ before modeled₀ i' term table kept
      · rw [if_neg same] at modeled
        refine ⟨fresh.tables design d₀ m before modeled, fresh.models design d₀ m before modeled, ?_⟩
        intro term
        cases kept : m.instanceTruthTables i term with
        | none => rfl
        | some table =>
            obtain ⟨x', -, there, model, -⟩ := fresh.tables design d₀ m before modeled i term table kept
            rw [alive] at there
            exact absurd (Option.some.inj there ▸ model.symm) same

/-- An instance changes after the caches have forgotten it, and the others keep their values. -/
theorem Fresh.change {w w' : World Model} (fresh : Fresh w) (i : Nat) (designs : w'.designs = (w.invalidate i).designs)
    (others : ∀ j, j ≠ i → w'.instances j = w.instances j)
    (values : ∀ j x, j ≠ i → w.instances j = some x → w'.values x = w.values x) (owned : Owned w') : Fresh w' := by
  refine ⟨owned, ?_, ?_⟩
  · intro design d m found modeled j term table kept
    rw [designs] at found
    obtain ⟨tables, -, nothing⟩ := fresh.invalidated i design d m found modeled
    have apart : j ≠ i := by
      rintro rfl
      rw [nothing term] at kept
      cases kept
    obtain ⟨x, parameterTable, alive, model, listed, resolved⟩ := tables j term table kept
    refine ⟨x, parameterTable, ?_, model, listed, ?_⟩
    · rw [others j apart]
      exact alive
    · rw [values j x apart alive]
      exact resolved
  · intro design d m found modeled
    rw [designs] at found
    exact (fresh.invalidated i design d m found modeled).2.1

/-! ### Operations -/

namespace World

theorem instances_invalidate (w : World Model) (i : Nat) : (w.invalidate i).instances = w.instances := by
  unfold invalidate
  cases w.instances i <;> rfl

theorem instParameters_invalidate (w : World Model) (i : Nat) : (w.invalidate i).instParameters = w.instParameters := by
  unfold invalidate
  cases w.instances i <;> rfl

theorem designs_invalidate (w w' : World Model) (i : Nat) (designs : w'.designs = w.designs)
    (model : (w'.instances i).map SNLInstance.model = (w.instances i).map SNLInstance.model) :
    (w'.invalidate i).designs = (w.invalidate i).designs := by
  unfold invalidate
  cases alive : w.instances i with
  | none =>
      rw [alive] at model
      rw [Option.map_eq_none_iff.mp model]
      exact designs
  | some x =>
      rw [alive] at model
      obtain ⟨x', alive', same⟩ := Option.map_eq_some_iff.mp model
      rw [alive']
      change w'.designs.modify x'.model _ = w.designs.modify x.model _
      rw [same, designs]

end World

/-- An object of one instance is in the set of no other. -/
theorem Owned.apart {w : World Model} (owned : Owned w) {i j : Nat} {x : SNLInstance} (alive : w.instances j = some x)
    (apart : j ≠ i) {entry : String × Nat} (member : entry ∈ x.instParameters) {o : Nat}
    (other : ∀ p, w.instParameters o = some p → p.instance_ = i) : entry.2 ≠ o := by
  rintro rfl
  obtain ⟨value, found⟩ := owned j x alive entry member
  exact apart (other _ found)

theorem createInstParameter_fresh {w w' : World Model} (fresh : Fresh w) (object i design : Nat) (name value : String)
    (done : w.createInstParameter object i design name value = some w') : Fresh w' := by
  obtain ⟨x, alive, done⟩ := Option.bind_eq_some_iff.mp done
  obtain ⟨d, -, done⟩ := Option.bind_eq_some_iff.mp done
  by_cases refused : (w.instParameters object).isSome ∨ (d.getParameter name).isNone
  · rw [if_pos refused] at done
    cases done
  · rw [if_neg refused] at done
    by_cases other : x.model ≠ design
    · rw [if_pos other] at done
      exact Option.some.inj done ▸ fresh
    · rw [if_neg other] at done
      have free : w.instParameters object = none := by
        cases there : w.instParameters object with
        | none => rfl
        | some p => exact absurd (.inl (there ▸ rfl)) refused
      obtain rfl := Option.some.inj done
      refine fresh.change i (World.designs_invalidate w _ i rfl ?_) ?_ ?_ ?_
      · rw [alive]
        refine (congrArg (Option.map SNLInstance.model) (if_pos rfl)).trans ?_
        rfl
      · intro j apart
        rw [World.instances_invalidate]
        exact if_neg apart
      · intro j y apart there
        refine World.values_of_objects w _ y ?_
        intro entry member
        rw [World.instParameters_invalidate]
        refine if_neg (fresh.owned.apart there apart member ?_)
        intro p same
        rw [free] at same
        cases same
      · intro j y there entry member
        rw [World.instances_invalidate] at there
        rw [World.instParameters_invalidate]
        have old (z : SNLInstance) (before : w.instances j = some z) (inside : entry ∈ z.instParameters) :
            ∃ value', (w.setInstParameter object (some ⟨i, name, value⟩)).instParameters entry.2 =
              some ⟨j, entry.1, value'⟩ := by
          obtain ⟨kept, linked⟩ := fresh.owned j z before entry inside
          have apart : entry.2 ≠ object := by
            intro same
            rw [same, free] at linked
            cases linked
          exact ⟨kept, (if_neg apart).trans linked⟩
        by_cases own : j = i
        · subst own
          obtain rfl := Option.some.inj ((if_pos rfl).symm.trans there)
          change entry ∈ (if _ then _ else _) at member
          split at member
          · exact old x alive member
          · rcases List.mem_append.mp member with before | new
            · exact old x alive before
            · obtain rfl := List.mem_singleton.mp new
              exact ⟨value, if_pos rfl⟩
        · exact old y ((if_neg own).symm.trans there) member

theorem setValue_fresh {w w' : World Model} (fresh : Fresh w) (object : Nat) (value : String)
    (done : w.setValue object value = some w') : Fresh w' := by
  obtain ⟨p, found, done⟩ := Option.bind_eq_some_iff.mp done
  obtain ⟨x, alive, done⟩ := Option.bind_eq_some_iff.mp done
  obtain rfl := Option.some.inj done
  have objects (o : Nat) (apart : o ≠ object) :
      ((w.setInstParameter object (some { p with value := value })).invalidate p.instance_).instParameters o =
        w.instParameters o := by
    rw [World.instParameters_invalidate]
    exact if_neg apart
  refine fresh.change p.instance_ (World.designs_invalidate w _ _ rfl rfl) ?_ ?_ ?_
  · intro j _
    rw [World.instances_invalidate]
    rfl
  · intro j y apart there
    refine World.values_of_objects w _ y ?_
    intro entry member
    refine objects _ (fresh.owned.apart there apart member ?_)
    intro q same
    exact Option.some.inj (found.symm.trans same) ▸ rfl
  · intro j y there entry member
    rw [World.instances_invalidate] at there
    obtain ⟨old, linked⟩ := fresh.owned j y there entry member
    rw [World.instParameters_invalidate]
    by_cases same : entry.2 = object
    · rw [same, found] at linked
      obtain rfl := Option.some.inj linked
      refine ⟨value, ?_⟩
      rw [same]
      exact if_pos rfl
    · exact ⟨old, (if_neg same).trans linked⟩

theorem destroyInstParameter_fresh {w w' : World Model} (fresh : Fresh w) (object : Nat)
    (done : w.destroyInstParameter object = some w') : Fresh w' := by
  obtain ⟨p, found, done⟩ := Option.bind_eq_some_iff.mp done
  obtain ⟨x, alive, done⟩ := Option.bind_eq_some_iff.mp done
  obtain rfl := Option.some.inj done
  refine fresh.change p.instance_ rfl ?_ ?_ ?_
  · intro j apart
    exact (if_neg apart).trans (congrFun (World.instances_invalidate w p.instance_) j)
  · intro j y apart there
    refine World.values_of_objects w _ y ?_
    intro entry member
    have differs := fresh.owned.apart there apart member (o := object) (by
      intro q same
      exact Option.some.inj (found.symm.trans same) ▸ rfl)
    exact (if_neg differs).trans (congrFun (World.instParameters_invalidate w p.instance_) entry.2)
  · intro j y there entry member
    have keeps (z : SNLInstance) (before : w.instances j = some z) (inside : entry ∈ z.instParameters)
        (differs : entry.2 ≠ object) : ∃ value, ((w.invalidate p.instance_).setInstParameter object none).instParameters
          entry.2 = some ⟨j, entry.1, value⟩ := by
      obtain ⟨value, linked⟩ := fresh.owned j z before entry inside
      refine ⟨value, (if_neg differs).trans ?_⟩
      rw [World.instParameters_invalidate]
      exact linked
    by_cases own : j = p.instance_
    · subst own
      obtain rfl := Option.some.inj ((if_pos rfl).symm.trans there)
      obtain ⟨inside, differs⟩ := List.mem_filter.mp member
      refine keeps x alive inside ?_
      -- an object of this set has the name of its entry, and no entry with the name is left
      intro same
      obtain ⟨value, linked⟩ := fresh.owned p.instance_ x alive entry inside
      rw [same, found] at linked
      have named : p.parameter = entry.1 := congrArg SNLInstParameter.parameter (Option.some.inj linked)
      rw [named] at differs
      simp at differs
    · have before : w.instances j = some y := by
        rw [← World.instances_invalidate w p.instance_]
        exact (if_neg own).symm.trans there
      refine keeps y before member (fresh.owned.apart before own member ?_)
      intro q same
      exact Option.some.inj (found.symm.trans same) ▸ rfl

theorem setModel_fresh {w w' : World Model} (fresh : Fresh w) (i design : Nat) (done : w.setModel i design = some w') :
    Fresh w' := by
  obtain ⟨x, alive, done⟩ := Option.bind_eq_some_iff.mp done
  obtain ⟨d, -, done⟩ := Option.bind_eq_some_iff.mp done
  obtain ⟨d', -, done⟩ := Option.bind_eq_some_iff.mp done
  by_cases same : x.model = design
  · rw [if_pos same] at done
    exact Option.some.inj done ▸ fresh
  · rw [if_neg same] at done
    split at done
    · exact Option.some.inj done ▸ fresh
    · obtain rfl := Option.some.inj done
      refine fresh.change i rfl ?_ ?_ ?_
      · intro j apart
        exact (if_neg apart).trans (congrFun (World.instances_invalidate w i) j)
      · intro j y _ there
        refine World.values_of_objects w _ y ?_
        intro entry _
        exact congrFun (World.instParameters_invalidate w i) entry.2
      · intro j y there entry member
        change ∃ value, (w.invalidate i).instParameters entry.2 = _
        rw [World.instParameters_invalidate]
        by_cases own : j = i
        · subst own
          obtain rfl := Option.some.inj ((if_pos rfl).symm.trans there)
          exact fresh.owned j x alive entry member
        · refine fresh.owned j y ?_ entry member
          rw [← World.instances_invalidate w i]
          exact (if_neg own).symm.trans there

theorem createInstance_fresh {w w' : World Model} (fresh : Fresh w) (i design : Nat)
    (done : w.createInstance i design = some w') : Fresh w' := by
  unfold World.createInstance at done
  by_cases refused : (w.instances i).isSome ∨ w.designs[design]?.isNone
  · rw [if_pos refused] at done
    cases done
  · rw [if_neg refused] at done
    obtain rfl := Option.some.inj done
    have free : w.instances i = none := by
      cases there : w.instances i with
      | none => rfl
      | some x => exact absurd (.inl (there ▸ rfl)) refused
    refine fresh.change i ?_ (fun j apart => if_neg apart) (fun j x _ _ => rfl) ?_
    · unfold World.invalidate
      rw [free]
      rfl
    · intro j y there entry member
      by_cases own : j = i
      · subst own
        obtain rfl := Option.some.inj ((if_pos rfl).symm.trans there)
        cases member
      · exact fresh.owned j y ((if_neg own).symm.trans there) entry member

theorem destroyed_objects (entries : List (String × Nat)) (w : World Model) :
    (entries.foldl (fun w entry => w.setInstParameter entry.2 none) w).designs = w.designs ∧
      (entries.foldl (fun w entry => w.setInstParameter entry.2 none) w).instances = w.instances ∧
      ∀ o, (∀ entry ∈ entries, entry.2 ≠ o) →
        (entries.foldl (fun w entry => w.setInstParameter entry.2 none) w).instParameters o = w.instParameters o := by
  induction entries generalizing w with
  | nil => exact ⟨rfl, rfl, fun _ _ => rfl⟩
  | cons entry rest ih =>
      obtain ⟨designs, instances, objects⟩ := ih (w.setInstParameter entry.2 none)
      refine ⟨designs, instances, ?_⟩
      intro o apart
      refine (objects o (fun other member => apart other (List.mem_cons_of_mem _ member))).trans ?_
      exact if_neg (Ne.symm (apart entry List.mem_cons_self))

theorem destroyInstance_fresh {w w' : World Model} (fresh : Fresh w) (i : Nat) (done : w.destroyInstance i = some w') :
    Fresh w' := by
  obtain ⟨x, alive, done⟩ := Option.bind_eq_some_iff.mp done
  obtain rfl := Option.some.inj done
  obtain ⟨designs, instances, objects⟩ := destroyed_objects x.instParameters (w.invalidate i)
  have same (j : Nat) (y : SNLInstance) (apart : j ≠ i) (there : w.instances j = some y) (entry : String × Nat)
      (member : entry ∈ y.instParameters) :
      (x.instParameters.foldl (fun w entry => w.setInstParameter entry.2 none) (w.invalidate i)).instParameters entry.2 =
        w.instParameters entry.2 := by
    rw [objects entry.2, World.instParameters_invalidate]
    intro other inside
    obtain ⟨value, linked⟩ := fresh.owned i x alive other inside
    refine Ne.symm (fresh.owned.apart there apart member ?_)
    intro p found
    exact Option.some.inj (linked.symm.trans found) ▸ rfl
  refine fresh.change i designs ?_ ?_ ?_
  · intro j apart
    refine (if_neg apart).trans ?_
    rw [instances, World.instances_invalidate]
  · intro j y apart there
    exact World.values_of_objects w _ y (same j y apart there)
  · intro j y there entry member
    by_cases own : j = i
    · subst own
      have gone : (none : Option SNLInstance) = some y := (if_pos rfl).symm.trans there
      cases gone
    · have before : w.instances j = some y := by
        have after := (if_neg own).symm.trans there
        rw [instances, World.instances_invalidate] at after
        exact after
      obtain ⟨value, linked⟩ := fresh.owned j y before entry member
      exact ⟨value, (same j y own before entry member).trans linked⟩

theorem parameterTable_ok {d : SNLDesign Model} {design : Nat} {output : SNLBitTerm} {inputs : List SNLBitTerm}
    {owner : Nat} {parameter : SNLParameter} {offset : Nat} {m : SNLDesignModeling Model}
    (done : parameterTable d design output inputs owner parameter offset = .ok m) :
    ∃ table, ((d.modeling.getD { parameterized := false }).parameterTruthTables.lookup output.orderID) = none ∧
      m = { d.modeling.getD { parameterized := false } with
        parameterTruthTables := (output.orderID, table) ::
          (d.modeling.getD { parameterized := false }).parameterTruthTables } := by
  obtain ⟨-, -, done⟩ := (bind_eq_ok _ _ _).mp done
  obtain ⟨-, -, done⟩ := (bind_eq_ok _ _ _).mp done
  obtain ⟨-, -, done⟩ := (bind_eq_ok _ _ _).mp done
  obtain ⟨-, -, done⟩ := (bind_eq_ok _ _ _).mp done
  obtain ⟨-, -, done⟩ := (bind_eq_ok _ _ _).mp done
  obtain ⟨-, -, done⟩ := (bind_eq_ok _ _ _).mp done
  obtain ⟨default, -, done⟩ := (bind_eq_ok _ _ _).mp done
  obtain ⟨bits, -, done⟩ := (bind_eq_ok _ _ _).mp done
  obtain ⟨table, -, done⟩ := (bind_eq_ok _ _ _).mp done
  obtain ⟨-, -, done⟩ := (bind_eq_ok _ _ _).mp done
  obtain ⟨_, unlisted, done⟩ := (bind_eq_ok _ _ _).mp done
  refine ⟨⟨parameter, offset, table⟩, ?_, (Except.ok.inj done).symm⟩
  unfold refuseIf at unlisted
  split at unlisted
  · cases unlisted
  · next free =>
      cases listed : (d.modeling.getD { parameterized := false }).parameterTruthTables.lookup output.orderID with
      | none => rfl
      | some kept =>
          rw [listed] at free
          exact absurd rfl free

theorem setTruthTableFromParameter_fresh {w w' : World Model} (fresh : Fresh w) (design : Nat) (output : SNLBitTerm)
    (inputs : List SNLBitTerm) (owner : Nat) (name : String) (offset : Nat)
    (done : w.setTruthTableFromParameter design output inputs owner name offset = some w') : Fresh w' := by
  obtain ⟨d, found, done⟩ := Option.bind_eq_some_iff.mp done
  obtain ⟨d', -, done⟩ := Option.bind_eq_some_iff.mp done
  obtain ⟨parameter, -, done⟩ := Option.bind_eq_some_iff.mp done
  cases table : parameterTable d design output inputs owner parameter offset with
  | error e =>
      rw [table] at done
      exact Option.some.inj done ▸ fresh
  | ok m =>
      rw [table] at done
      obtain rfl := Option.some.inj done
      obtain ⟨new, unlisted, rfl⟩ := parameterTable_ok table
      refine fresh.modify design _ rfl rfl rfl ?_
      intro d₀ m there modeled
      obtain rfl := Option.some.inj (found.symm.trans there)
      obtain rfl := Option.some.inj modeled
      cases before : d.modeling with
      | none =>
          constructor
          · intro i term table kept
            cases kept
          · intro i cached kept
            cases kept
      | some m₀ =>
          rw [before] at unlisted
          refine ⟨?_, fresh.models design d m₀ found before⟩
          intro i term kept cached
          obtain ⟨x, parameterTable, alive, model, listed, resolved⟩ := fresh.tables design d m₀ found before i term kept cached
          refine ⟨x, parameterTable, alive, model, ?_, resolved⟩
          have apart : term ≠ output.orderID := by
            rintro rfl
            rw [Option.getD_some, listed] at unlisted
            cases unlisted
          have below : List.lookup term ((output.orderID, new) :: m₀.parameterTruthTables) =
              List.lookup term m₀.parameterTruthTables := by
            rw [List.lookup_cons, beq_eq_false_iff_ne.mpr apart]
          exact below.trans listed

/-- A design forgets all selections when its table or its model is set. -/
theorem Fresh.reset {w : World Model} (fresh : Fresh w) (design : Nat) (d : SNLDesign Model) (found : w.designs[design]? = some d)
    (m : SNLDesignModeling Model)
    (tables : m.instanceTruthTables = (d.modeling.getD { parameterized := false }).instanceTruthTables)
    (listed : m.parameterTruthTables = (d.modeling.getD { parameterized := false }).parameterTruthTables)
    (models : ∀ i, m.instanceSequentialModels i = none) : Fresh (w.setModeling design m) := by
  refine fresh.modify design _ rfl rfl rfl ?_
  intro d₀ m' there modeled
  obtain rfl := Option.some.inj (found.symm.trans there)
  obtain rfl := Option.some.inj modeled
  constructor
  · intro i term table kept
    rw [tables] at kept
    rw [listed]
    cases before : d.modeling with
    | none =>
        rw [before] at kept
        cases kept
    | some m₀ =>
        rw [before] at kept
        exact fresh.tables design d m₀ found before i term table kept
  · intro i cached kept
    rw [models i] at kept
    cases kept

theorem getTruthTable_kept {w : World Model} (fresh : Fresh w) (i term : Nat) :
    (w.getTruthTable i term).1 = w.currentTruthTable i term ∧ Fresh (w.getTruthTable i term).2 := by
  unfold World.getTruthTable World.currentTruthTable
  cases alive : w.instances i with
  | none => exact ⟨rfl, fresh⟩
  | some x =>
      rw [Option.bind_some]
      dsimp only
      cases found : w.designs[x.model]? with
      | none => exact ⟨rfl, fresh⟩
      | some d =>
          dsimp only [Option.map_some]
          cases d.readOnlyMemory (w.values x) term with
          | some table => exact ⟨rfl, fresh⟩
          | none =>
              cases modeled : d.modeling with
              | none => exact ⟨rfl, fresh⟩
              | some m =>
                  dsimp only [Option.bind_some]
                  cases listed : m.parameterTruthTables.lookup term with
                  | none => exact ⟨rfl, fresh⟩
                  | some parameterTable =>
                      dsimp only [Option.map_some]
                      cases kept : m.instanceTruthTables i term with
                      | some cached =>
                          obtain ⟨x', parameterTable', alive', -, listed', resolved⟩ :=
                            fresh.tables x.model d m found modeled i term cached kept
                          obtain rfl := Option.some.inj (alive.symm.trans alive')
                          obtain rfl := Option.some.inj (listed.symm.trans listed')
                          exact ⟨resolved.symm, fresh⟩
                      | none =>
                          cases resolved : resolveTruthTable (w.values x) parameterTable with
                          | error e => exact ⟨rfl, fresh⟩
                          | ok table =>
                              refine ⟨rfl, fresh.modify x.model _ rfl rfl rfl ?_⟩
                              intro d' m' there changed
                              obtain rfl := Option.some.inj (found.symm.trans there)
                              rw [modeled] at changed
                              obtain rfl := Option.some.inj changed
                              refine ⟨?_, fresh.models x.model d m found modeled⟩
                              intro i' term' table' held
                              by_cases own : i' = i ∧ term' = term
                              · obtain ⟨rfl, rfl⟩ := own
                                have same : some table = some table' := (if_pos ⟨rfl, rfl⟩).symm.trans held
                                obtain rfl := Option.some.inj same
                                exact ⟨x, parameterTable, alive, rfl, listed, resolved⟩
                              · exact fresh.tables x.model d m found modeled i' term' table' ((if_neg own).symm.trans held)

theorem getSequentialModel_kept {w : World Model} (fresh : Fresh w) (i : Nat) :
    (w.getSequentialModel i).1 = w.currentSequentialModel i ∧ Fresh (w.getSequentialModel i).2 := by
  unfold World.getSequentialModel World.currentSequentialModel
  cases alive : w.instances i with
  | none => exact ⟨rfl, fresh⟩
  | some x =>
      rw [Option.bind_some]
      dsimp only
      cases found : w.designs[x.model]? with
      | none => exact ⟨rfl, fresh⟩
      | some d =>
          dsimp only [Option.bind_some]
          cases modeled : d.modeling with
          | none => exact ⟨rfl, fresh⟩
          | some m =>
              dsimp only [Option.map_some]
              by_cases empty : m.sequentialModels.isEmpty
              · rw [if_pos empty, if_pos empty]
                cases m.sequentialModel with
                | none => exact ⟨rfl, fresh⟩
                | some model => exact ⟨rfl, fresh⟩
              · rw [if_neg empty, if_neg empty]
                cases sequentialLiterals d (w.values x) m.sequentialParameters with
                | error e => exact ⟨rfl, fresh⟩
                | ok literals =>
                    dsimp only
                    unfold selectSequentialModel
                    cases kept : (m.instanceSequentialModels i).filter (fun cached => cached.values == literals) with
                    | some cached =>
                        obtain ⟨there, same⟩ := Option.filter_eq_some_iff.mp kept
                        obtain ⟨values, listed⟩ := fresh.models x.model d m found modeled i cached there
                        rw [beq_iff_eq.mp same] at values
                        rw [values]
                        dsimp only
                        cases entry : m.sequentialModels.lookup cached.entry with
                        | none =>
                            rw [entry] at listed
                            cases listed
                        | some model => exact ⟨rfl, fresh⟩
                    | none =>
                        dsimp only
                        cases values : sequentialValues literals with
                        | error e => exact ⟨rfl, fresh⟩
                        | ok numbers =>
                            dsimp only
                            cases entry : m.sequentialModels.lookup numbers with
                            | none => exact ⟨rfl, fresh⟩
                            | some model =>
                                refine ⟨rfl, fresh.modify x.model _ rfl rfl rfl ?_⟩
                                intro d' m' there changed
                                obtain rfl := Option.some.inj (found.symm.trans there)
                                rw [modeled] at changed
                                obtain rfl := Option.some.inj changed
                                refine ⟨fresh.tables x.model d m found modeled, ?_⟩
                                intro i' cached held
                                by_cases own : i' = i
                                · subst own
                                  have same : some ⟨literals, numbers⟩ = some cached := (if_pos rfl).symm.trans held
                                  obtain rfl := Option.some.inj same
                                  exact ⟨values, entry ▸ rfl⟩
                                · exact fresh.models x.model d m found modeled i' cached ((if_neg own).symm.trans held)

/-! ### Runs -/

section
variable (validateModel : SNLDesign Model → Model → Bool) (isValid : Model → Bool)

theorem step_fresh {w w' : World Model} (fresh : Fresh w) (operation : Operation Model)
    (done : World.step validateModel isValid w operation = some w') : Fresh w' := by
  cases operation with
  | createInstParameter object i design name value => exact createInstParameter_fresh fresh object i design name value done
  | setValue object value => exact setValue_fresh fresh object value done
  | destroyInstParameter object => exact destroyInstParameter_fresh fresh object done
  | setModel i design => exact setModel_fresh fresh i design done
  | createInstance i design => exact createInstance_fresh fresh i design done
  | destroyInstance i => exact destroyInstance_fresh fresh i done
  | setTruthTableFromParameter design output inputs owner name offset =>
      exact setTruthTableFromParameter_fresh fresh design output inputs owner name offset done
  | setSequentialModelFromParameters design parameters models =>
      obtain ⟨d, found, done⟩ := Option.bind_eq_some_iff.mp done
      split at done
      · exact Option.some.inj done ▸ fresh
      · obtain rfl := Option.some.inj done
        exact fresh.reset design d found _ rfl rfl (fun _ => rfl)
  | setSequentialModel design model =>
      obtain ⟨d, found, done⟩ := Option.bind_eq_some_iff.mp done
      split at done
      · exact Option.some.inj done ▸ fresh
      · obtain rfl := Option.some.inj done
        exact fresh.reset design d found _ rfl rfl (fun _ => rfl)
  | getTruthTable i term =>
      obtain rfl := Option.some.inj done
      exact (getTruthTable_kept fresh i term).2
  | getSequentialModel i =>
      obtain rfl := Option.some.inj done
      exact (getSequentialModel_kept fresh i).2

theorem run_fresh {w w' : World Model} (fresh : Fresh w) (operations : List (Operation Model))
    (done : World.run validateModel isValid w operations = some w') : Fresh w' := by
  induction operations generalizing w with
  | nil =>
      obtain rfl := Option.some.inj done
      exact fresh
  | cons operation rest ih =>
      obtain ⟨middle, first, later⟩ := Option.bind_eq_some_iff.mp done
      exact ih (step_fresh validateModel isValid fresh operation first) later

/-- Designs without instances yet. -/
def World.start (designs : List (SNLDesign Model)) : World Model := ⟨designs, fun _ => none, fun _ => none⟩

/-- A design that has kept nothing yet. -/
def SNLDesign.Unasked (d : SNLDesign Model) : Prop :=
  ∀ m, d.modeling = some m → (∀ i term, m.instanceTruthTables i term = none) ∧ ∀ i, m.instanceSequentialModels i = none

theorem start_fresh (designs : List (SNLDesign Model)) (unasked : ∀ d ∈ designs, d.Unasked) : Fresh (World.start designs) := by
  refine ⟨nofun, ?_, ?_⟩
  · intro design d m found modeled i term table kept
    rw [(unasked d (List.mem_of_getElem? found) m modeled).1] at kept
    cases kept
  · intro design d m found modeled i cached kept
    rw [(unasked d (List.mem_of_getElem? found) m modeled).2] at kept
    cases kept

/-- After any operations, and with any queries among them, a query of an instance answers what
the parameters and the tables of that moment give. -/
theorem caches_fresh (designs : List (SNLDesign Model)) (unasked : ∀ d ∈ designs, d.Unasked)
    (operations : List (Operation Model)) (w : World Model)
    (done : World.run validateModel isValid (World.start designs) operations = some w) (i : Nat) :
    (∀ term, (w.getTruthTable i term).1 = w.currentTruthTable i term) ∧
      (w.getSequentialModel i).1 = w.currentSequentialModel i := by
  have fresh := run_fresh validateModel isValid (start_fresh designs unasked) operations done
  exact ⟨fun term => (getTruthTable_kept fresh i term).1, (getSequentialModel_kept fresh i).1⟩

end

def lookupTable : SNLDesign Unit where
  isPrimitive := true
  terms := [⟨some "I", 0, .Input, none⟩, ⟨some "O", 1, .Output, none⟩]
  parameters := [⟨"INIT", .Binary, some "2"⟩]
  readOnlyMemory := fun _ _ => none
  hasTruthTable := false
  truthTable := fun _ => .error "not an output"
  modeling := none

/-- An instance is asked for its table with a parameter of its own and is destroyed; another
instance takes its address. -/
def reusedAddress : List (Operation Unit) :=
  [.setTruthTableFromParameter 0 ⟨0, 1⟩ [⟨0, 0⟩] 0 "INIT" 0, .createInstance 7 0,
    .createInstParameter 3 7 0 "INIT" "1", .getTruthTable 7 1, .destroyInstance 7, .createInstance 7 0]

theorem caches_fresh_reused :
    ∃ w, World.run (fun _ _ => true) (fun _ => true) (World.start [lookupTable]) reusedAddress = some w ∧
      (w.getTruthTable 7 1).1 = w.currentTruthTable 7 1 := by
  have unasked : ∀ d ∈ [lookupTable], d.Unasked := List.forall_mem_singleton.mpr nofun
  refine ⟨_, rfl, ?_⟩
  exact (caches_fresh (fun _ _ => true) (fun _ => true) [lookupTable] unasked reusedAddress _ rfl 7).1 1

end Naja.Modeling
