import Naja.Dnl.Traversal

/-! What the traversal from a terminal leaves in a new iso: the drivers and the readers of
the net, and the type all constant nets agree on. -/

namespace Naja.Dnl

/-! ### Types -/

def IsoType.isConstant : IsoType → Bool
  | .CONST0 | .CONST1 | .CONSTX | .CONSTZ => true
  | .STANDART | .AMBIGUOUS | .SHADOW => false

/-- The type of an iso after one more net. -/
def IsoType.join (type netType : IsoType) : IsoType :=
  if type = .AMBIGUOUS ∨ netType = .STANDART then type
  else if type ≠ .STANDART ∧ type ≠ netType then .AMBIGUOUS
  else netType

/-- A type that nets have. -/
def IsoType.OfNet (type : IsoType) : Prop := type = .STANDART ∨ type.isConstant = true

/-- The type stands for the types of all nets. -/
def Summary (types : List IsoType) (type : IsoType) : Prop :=
  (type = .STANDART ∧ ∀ other ∈ types, other = .STANDART) ∨
    (type.isConstant = true ∧ type ∈ types ∧ ∀ other ∈ types, other = .STANDART ∨ other = type) ∨
    (type = .AMBIGUOUS ∧ ∃ a ∈ types, ∃ b ∈ types, a.isConstant = true ∧ b.isConstant = true ∧ a ≠ b)

theorem Summary.join (types : List IsoType) (type netType : IsoType) (summary : Summary types type)
    (ofNet : netType.OfNet) : Summary (netType :: types) (type.join netType) := by
  unfold IsoType.join
  by_cases plain : netType = .STANDART
  · rw [if_pos (Or.inr plain), plain]
    rcases summary with ⟨same, all⟩ | ⟨constant, listed, all⟩ | ⟨same, a, inA, b, inB, both⟩
    · exact Or.inl ⟨same, List.forall_mem_cons.mpr ⟨rfl, all⟩⟩
    · exact Or.inr (Or.inl ⟨constant, List.mem_cons_of_mem _ listed, List.forall_mem_cons.mpr ⟨Or.inl rfl, all⟩⟩)
    · exact Or.inr (Or.inr ⟨same, a, List.mem_cons_of_mem _ inA, b, List.mem_cons_of_mem _ inB, both⟩)
  · have constantNet := ofNet.resolve_left plain
    rcases summary with ⟨rfl, all⟩ | ⟨constant, listed, all⟩ | ⟨rfl, a, inA, b, inB, both⟩
    · rw [if_neg (by simp [plain]), if_neg (by simp)]
      refine Or.inr (Or.inl ⟨constantNet, List.mem_cons_self, ?_⟩)
      exact List.forall_mem_cons.mpr ⟨Or.inr rfl, fun other member => Or.inl (all other member)⟩
    · have notAmbiguous : type ≠ .AMBIGUOUS := by
        rintro rfl
        cases constant
      have notPlain : type ≠ .STANDART := by
        rintro rfl
        cases constant
      rw [if_neg (by simp [plain, notAmbiguous])]
      by_cases same : type = netType
      · rw [if_neg (by simp [same])]
        subst same
        exact Or.inr (Or.inl ⟨constant, List.mem_cons_self, List.forall_mem_cons.mpr ⟨Or.inr rfl, all⟩⟩)
      · rw [if_pos ⟨notPlain, same⟩]
        exact Or.inr (Or.inr ⟨rfl, type, List.mem_cons_of_mem _ listed, netType, List.mem_cons_self, constant, constantNet, same⟩)
    · rw [if_pos (Or.inl rfl)]
      exact Or.inr (Or.inr ⟨rfl, a, List.mem_cons_of_mem _ inA, b, List.mem_cons_of_mem _ inB, both⟩)

/-- A constant type means that some net has it and no net another constant. -/
theorem Summary.eq_iff (types : List IsoType) (type constant : IsoType) (summary : Summary types type)
    (isConstant : constant.isConstant = true) :
    type = constant ↔ constant ∈ types ∧ ∀ other ∈ types, other.isConstant = true → other = constant := by
  rcases summary with ⟨rfl, all⟩ | ⟨is, listed, all⟩ | ⟨rfl, a, inA, b, inB, isA, isB, apart⟩
  · constructor
    · rintro rfl
      cases isConstant
    · intro given
      rw [all constant given.1] at isConstant
      cases isConstant
  · constructor
    · rintro rfl
      refine ⟨listed, fun other member isOther => ?_⟩
      rcases all other member with rfl | same
      · cases isOther
      · exact same
    · exact fun given => given.2 type listed is
  · constructor
    · rintro rfl
      cases isConstant
    · intro given
      exact absurd ((given.2 a inA isA).trans (given.2 b inB isB).symm) apart

theorem constantType_ofNet (type : Netlist.NetType) : (constantType type).OfNet := by
  cases type with
  | Standard => exact Or.inl rfl
  | Assign0 => exact Or.inr rfl
  | Assign1 => exact Or.inr rfl
  | Supply0 => exact Or.inr rfl
  | Supply1 => exact Or.inr rfl
  | AssignX => exact Or.inr rfl
  | AssignZ => exact Or.inr rfl

theorem Summary.not_shadow (types : List IsoType) (type : IsoType) (summary : Summary types type) : type ≠ .SHADOW := by
  rintro rfl
  rcases summary with ⟨same, -⟩ | ⟨constant, -⟩ | ⟨same, -⟩
  · cases same
  · cases constant
  · cases same

/-- The sets that have the iso are told by its type. -/
def Listed (db : IsoDB) (iso : Nat) (type : IsoType) : Prop :=
  ∀ constant : IsoType, iso ∈ db.constantIsos constant ↔ constant.isConstant = true ∧ type = constant

/-- The iso is not changed. -/
structure Kept (iso : Nat) (db db' : IsoDB) : Prop where
  record : db'.isos[iso]? = db.isos[iso]?
  sets : ∀ type, iso ∈ db'.constantIsos type ↔ iso ∈ db.constantIsos type

theorem Kept.trans {iso : Nat} {db db' db'' : IsoDB} (first : Kept iso db db') (second : Kept iso db' db'') :
    Kept iso db db'' :=
  ⟨second.record.trans first.record, fun type => (second.sets type).trans (first.sets type)⟩

/-- Only one iso is changed. -/
structure Local (iso : Nat) (db db' : IsoDB) : Prop where
  length : db'.isos.length = db.isos.length
  others : ∀ j ≠ iso, Kept j db db'

theorem Local.refl (iso : Nat) (db : IsoDB) : Local iso db db := ⟨rfl, fun _ _ => ⟨rfl, fun _ => Iff.rfl⟩⟩

theorem Local.trans {iso : Nat} {db db' db'' : IsoDB} (first : Local iso db db') (second : Local iso db' db'') :
    Local iso db db'' :=
  ⟨second.length.trans first.length, fun j other => (first.others j other).trans (second.others j other)⟩

theorem modifyIso_getElem?_ne (iso j : Nat) (f : Iso → Iso) (db : IsoDB) (other : j ≠ iso) :
    (db.modifyIso iso f).isos[j]? = db.isos[j]? :=
  List.getElem?_modify_ne f db.isos other.symm

theorem Local.modifyIso (iso : Nat) (f : Iso → Iso) (db : IsoDB) : Local iso db (db.modifyIso iso f) :=
  ⟨List.length_modify _ _ _, fun j other => ⟨modifyIso_getElem?_ne iso j f db other, fun _ => Iff.rfl⟩⟩

theorem Local.setIsoID (iso fid : Nat) (db : IsoDB) : Local iso db (db.setIsoID fid iso) :=
  ⟨rfl, fun _ _ => ⟨rfl, fun _ => Iff.rfl⟩⟩

theorem modifyIso_getElem? (iso : Nat) (f : Iso → Iso) (db : IsoDB) (here : Iso) (found : db.isos[iso]? = some here) :
    (db.modifyIso iso f).isos[iso]? = some (f here) := by
  show (db.isos.modify iso f)[iso]? = _
  rw [List.getElem?_modify_eq, found]
  rfl

theorem handleConstant_spec (iso : Nat) (netType : IsoType) (db : IsoDB) (here : Iso) (found : db.isos[iso]? = some here)
    (ofNet : netType.OfNet) (listed : Listed db iso here.type) :
    Local iso db (handleConstant iso netType db) ∧ (handleConstant iso netType db).isoIDs = db.isoIDs ∧
      (handleConstant iso netType db).isos[iso]? = some (here.setIsoType (here.type.join netType)) ∧
      Listed (handleConstant iso netType db) iso (here.type.join netType) := by
  unfold handleConstant IsoType.join
  rw [found]
  dsimp only
  by_cases still : here.type = .AMBIGUOUS ∨ netType = .STANDART
  · rw [if_pos still, if_pos still]
    exact ⟨Local.refl iso db, rfl, found, listed⟩
  · rw [if_neg still, if_neg still]
    rw [not_or] at still
    have constantNet := ofNet.resolve_left still.2
    by_cases clash : here.type ≠ .STANDART ∧ here.type ≠ netType
    · rw [if_pos clash, if_pos clash]
      refine ⟨⟨List.length_modify _ _ _, fun j other => ⟨modifyIso_getElem?_ne iso j _ _ other, fun type => ?_⟩⟩, rfl,
        modifyIso_getElem? iso _ _ here found, fun constant => ?_⟩
      · exact Finset.mem_erase.trans (and_iff_right other)
      · refine iff_of_false (Finset.notMem_erase iso _) ?_
        rintro ⟨isConstant, rfl⟩
        cases isConstant
    · rw [if_neg clash, if_neg clash]
      have onto : here.type = .STANDART ∨ here.type = netType := by
        rw [← not_or, not_not] at clash
        exact clash
      refine ⟨⟨List.length_modify _ _ _, fun j other => ⟨modifyIso_getElem?_ne iso j _ _ other, fun type => ?_⟩⟩, rfl,
        modifyIso_getElem? iso _ _ here found, fun constant => ?_⟩
      · show j ∈ Function.update db.constantIsos netType (insert iso (db.constantIsos netType)) type ↔ _
        by_cases same : type = netType
        · rw [same, Function.update_self, Finset.mem_insert, or_iff_right other]
        · rw [Function.update_of_ne same]
      · show iso ∈ Function.update db.constantIsos netType (insert iso (db.constantIsos netType)) constant ↔ _
        by_cases same : constant = netType
        · rw [same, Function.update_self]
          exact iff_of_true (Finset.mem_insert_self iso _) ⟨constantNet, rfl⟩
        · rw [Function.update_of_ne same, listed constant]
          refine and_congr_right fun isConstant => iff_of_false ?_ (Ne.symm same)
          rcases onto with plain | equal
          · rw [plain]
            rintro rfl
            cases isConstant
          · rw [equal]
            exact Ne.symm same

/-! ### One terminal -/

section Terminals
variable (dnl : DNL)

/-- The types of the nets of a terminal. -/
def netTypes (fid : Nat) : List IsoType :=
  (outerNet dnl fid).toList.map (typeOfNet dnl) ++ (innerNet dnl fid).toList.map (typeOfNet dnl)

theorem typeOfNet_ofNet (entry : Nat × Nat) : (typeOfNet dnl entry).OfNet := by
  unfold typeOfNet
  cases netAt dnl entry with
  | none => exact Or.inl rfl
  | some place => exact constantType_ofNet _

variable {dnl}

theorem handleNet_spec (iso : Nat) (entry : Option (Nat × Nat)) (db : IsoDB) (here : Iso) (found : db.isos[iso]? = some here)
    (types : List IsoType) (summary : Summary types here.type) (listed : Listed db iso here.type) :
    Local iso db (handleNet dnl iso entry db) ∧ (handleNet dnl iso entry db).isoIDs = db.isoIDs ∧
      ∃ type, (handleNet dnl iso entry db).isos[iso]? = some (here.setIsoType type) ∧
        Summary (entry.toList.map (typeOfNet dnl) ++ types) type ∧
        Listed (handleNet dnl iso entry db) iso type := by
  cases entry with
  | none => exact ⟨Local.refl iso db, rfl, here.type, found, summary, listed⟩
  | some entry =>
      have ofNet := typeOfNet_ofNet dnl entry
      obtain ⟨only, ids, type, listed'⟩ := handleConstant_spec iso (typeOfNet dnl entry) db here found
        ofNet listed
      exact ⟨only, ids, _, type, summary.join types here.type _ ofNet, listed'⟩

/-- What the terminals of `visited` leave in the iso that was new in `before`. -/
structure Treated (dnl : DNL) (updateDriver : Bool) (iso : Nat) (before : IsoDB) (visited : List Nat)
    (db : IsoDB) : Prop where
  only : Local iso before db
  record : ∃ type, db.isos[iso]? = some
      ⟨visited.reverse.filter (role dnl · = .driver), visited.reverse.filter (role dnl · = .reader), type⟩ ∧
    Summary (visited.flatMap (netTypes dnl)) type ∧ Listed db iso type
  ids : ∀ u, db.isoIDs u =
    if u ∈ visited ∧ (role dnl u = .driver → updateDriver = true) then some iso else before.isoIDs u

theorem addTerminal_spec (updateDriver : Bool) (iso fid : Nat) (db : IsoDB) (drivers readers : List Nat) (type : IsoType)
    (found : db.isos[iso]? = some ⟨drivers, readers, type⟩) :
    Local iso db (addTerminal dnl updateDriver iso fid db) ∧
      (addTerminal dnl updateDriver iso fid db).constantIsos = db.constantIsos ∧
      (addTerminal dnl updateDriver iso fid db).isos[iso]? = some
        ⟨drivers ++ [fid].filter (role dnl · = .driver), readers ++ [fid].filter (role dnl · = .reader), type⟩ ∧
      (addTerminal dnl updateDriver iso fid db).isoIDs =
        if role dnl fid = .driver → updateDriver = true then Function.update db.isoIDs fid (some iso) else db.isoIDs := by
  have after (f : Iso → Iso) := modifyIso_getElem? iso f db _ found
  refine ⟨?_, ?_, ?_, ?_⟩
  · unfold addTerminal
    have local_ (f : Iso → Iso) := Local.modifyIso iso f db
    cases role dnl fid with
    | reader => exact (local_ _).trans (Local.setIsoID iso fid _)
    | hierTerm => exact Local.setIsoID iso fid db
    | driver =>
        cases updateDriver with
        | true => exact (local_ _).trans (Local.setIsoID iso fid _)
        | false => exact local_ _
  · unfold addTerminal
    cases role dnl fid <;> cases updateDriver <;> rfl
  · unfold addTerminal
    cases kind : role dnl fid with
    | reader => simpa [kind, IsoDB.setIsoID, Iso.addReader] using after (Iso.addReader fid)
    | hierTerm => simpa [kind, IsoDB.setIsoID] using found
    | driver => cases updateDriver <;> simpa [kind, IsoDB.setIsoID, Iso.addDriver] using after (Iso.addDriver fid)
  · unfold addTerminal
    cases role dnl fid <;> cases updateDriver <;> rfl

/-- One more terminal. -/
theorem Treated.step (updateDriver : Bool) (iso fid : Nat) (before : IsoDB) (visited : List Nat) (db : IsoDB)
    (treated : Treated dnl updateDriver iso before visited db) :
    Treated dnl updateDriver iso before (fid :: visited) (treatTerminal dnl updateDriver iso fid db) := by
  obtain ⟨type, found, summary, listed⟩ := treated.record
  obtain ⟨first, sets, added, ids⟩ := addTerminal_spec updateDriver iso fid db _ _ type found
  obtain ⟨second, sameIDs, type', found', summary', listed'⟩ := handleNet_spec iso
    (innerNet dnl fid) _ _ added _ summary (fun constant => by rw [sets]; exact listed constant)
  obtain ⟨third, sameIDs', type'', found'', summary'', listed''⟩ := handleNet_spec iso
    (outerNet dnl fid) _ _ found' _ summary' listed'
  constructor
  · exact ((treated.only.trans first).trans second).trans third
  · refine ⟨type'', found''.trans ?_, ?_, listed''⟩
    · rw [List.reverse_cons, List.filter_append, List.filter_append]
      rfl
    · rw [List.flatMap_cons, netTypes, List.append_assoc]
      exact summary''
  · intro u
    show (handleNet _ _ _ _).isoIDs u = _
    rw [sameIDs', sameIDs, ids]
    have old := treated.ids u
    split <;> grind [Function.update_apply]

/-- A new iso: nothing is in it, and no set has it. -/
structure Fresh (db : IsoDB) (iso : Nat) : Prop where
  new : db.isos[iso]? = some Iso.new
  apart : ∀ type, iso ∉ db.constantIsos type

theorem treated_foldr (updateDriver : Bool) (iso : Nat) (before : IsoDB) (fresh : Fresh before iso) (visited : List Nat) :
    Treated dnl updateDriver iso before visited
      (visited.foldr (treatTerminal dnl updateDriver iso) before) := by
  induction visited with
  | nil =>
      refine ⟨Local.refl iso before, ⟨.STANDART, fresh.new, ?_, fun constant => ?_⟩, fun u => ?_⟩
      · exact Or.inl ⟨rfl, fun other member => absurd member List.not_mem_nil⟩
      · refine iff_of_false (fresh.apart constant) ?_
        rintro ⟨isConstant, rfl⟩
        cases isConstant
      · exact (if_neg fun both => absurd both.1 List.not_mem_nil).symm
  | cons fid visited ih =>
      rw [List.foldr_cons]
      exact ih.step updateDriver iso fid before visited _

/-! ### The whole traversal -/

abbrev ConnectedAt (dnl : DNL) : Nat → Nat → Prop := Worklist.Connected (StandsAt dnl)

/-- The iso is that of a net: it lists what is on the net, and the set of a constant has it when this is
the only constant of the net. -/
structure HoldsNet (dnl : DNL) (db : IsoDB) (iso : Nat) (net : Nat → Prop) : Prop where
  lists : ∃ here : Iso, db.isos[iso]? = some here ∧ here.type ≠ .SHADOW ∧ here.drivers.Nodup ∧ here.readers.Nodup ∧
    (∀ u, u ∈ here.drivers ↔ net u ∧ role dnl u = .driver) ∧
    ∀ u, u ∈ here.readers ↔ net u ∧ role dnl u = .reader
  constants : ∀ type : IsoType, type.isConstant = true → (iso ∈ db.constantIsos type ↔
    (∃ u, net u ∧ type ∈ netTypes dnl u) ∧
      ∀ u, net u → ∀ other ∈ netTypes dnl u, other.isConstant = true → other = type)

/-- The iso is that of the net the terminal stands on. -/
abbrev Holds (dnl : DNL) (db : IsoDB) (iso fid : Nat) : Prop :=
  HoldsNet dnl db iso (ConnectedAt dnl fid)

theorem Holds.of_kept {db db' : IsoDB} {iso fid : Nat} (holds : Holds dnl db iso fid) (kept : Kept iso db db') :
    Holds dnl db' iso fid := by
  constructor
  · rw [kept.record]
    exact holds.lists
  · intro type isConstant
    rw [kept.sets type]
    exact holds.constants type isConstant

/-- The iso of a terminal is that of every terminal connected to it. -/
theorem Holds.of_connected (db : IsoDB) (iso fid u : Nat) (holds : Holds dnl db iso fid)
    (path : ConnectedAt dnl fid u) : Holds dnl db iso u := by
  have same : ConnectedAt dnl u = ConnectedAt dnl fid :=
    funext fun v => propext ⟨fun rest => path.trans rest, fun rest => (path.symm _ _ _).trans rest⟩
  unfold Holds
  rw [same]
  exact holds

/-- The traversal from `start` gives the terminal its iso. -/
def Takes (dnl : DNL) (updateDriver : Bool) (start u : Nat) : Prop :=
  ConnectedAt dnl start u ∧ (role dnl u = .driver → updateDriver = true)

/-- What `treatDriver` does from a terminal with a new iso. -/
structure Traversed (dnl : DNL) (updateDriver : Bool) (iso start : Nat) (db db' : IsoDB) : Prop where
  only : Local iso db db'
  holds : Holds dnl db' iso start
  set : ∀ u, Takes dnl updateDriver start u → db'.isoIDs u = some iso
  kept : ∀ u, ¬ Takes dnl updateDriver start u → db'.isoIDs u = db.isoIDs u

theorem treatDriver_spec (updateDriver : Bool) (iso start : Nat) (db : IsoDB) (fresh : Fresh db iso) :
    ∃ db', treatDriver dnl updateDriver iso start db = some db' ∧
      Traversed dnl updateDriver iso start db db' := by
  obtain ⟨visited, ended, nodup, exact_⟩ := treatDriver_eq updateDriver iso start db
  have treated : Treated dnl updateDriver iso db visited _ := treated_foldr updateDriver iso db fresh visited
  refine ⟨_, ended, ?_⟩
  generalize visited.foldr (treatTerminal dnl updateDriver iso) db = db' at treated
  obtain ⟨type, found, summary, listed⟩ := treated.record
  have types (other : IsoType) : other ∈ visited.flatMap (netTypes dnl) ↔
      ∃ u, ConnectedAt dnl start u ∧ other ∈ netTypes dnl u := by
    rw [List.mem_flatMap]
    simp only [exact_]
  constructor
  · exact treated.only
  · constructor
    · refine ⟨_, found, summary.not_shadow _ _, (List.nodup_reverse.mpr nodup).filter _, (List.nodup_reverse.mpr nodup).filter _,
        fun u => ?_, fun u => ?_⟩
      · rw [List.mem_filter, List.mem_reverse, exact_ u, decide_eq_true_eq]
      · rw [List.mem_filter, List.mem_reverse, exact_ u, decide_eq_true_eq]
    · intro constant isConstant
      rw [listed constant, and_iff_right isConstant, summary.eq_iff _ _ constant isConstant, types constant]
      refine and_congr_right fun _ => ⟨fun all u path other member => ?_, fun all other member => ?_⟩
      · exact all other ((types other).mpr ⟨u, path, member⟩)
      · obtain ⟨u, path, inside⟩ := (types other).mp member
        exact all u path other inside
  · exact fun u takes => (treated.ids u).trans (if_pos (takes.imp_left (exact_ u).mpr))
  · exact fun u apart => (treated.ids u).trans (if_neg (mt (And.imp_left (exact_ u).mp) apart))

end Terminals

end Naja.Dnl
