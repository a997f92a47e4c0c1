import Naja.ConstantPropagation.Analysis

/-! When the analysis ends. Nothing keeps a known constant off the worklist: a
leaf whose constant output feeds it back is looked at again in every round. The
analysis ends if no forced constant feeds itself, and for leaves that keep
their answer when more constants are known this is also necessary. -/

namespace Naja.ConstantPropagation

variable (truthTableEngine : Bool) (n : Netlist)

/-- Leaf `l` is among the readers of the iso. -/
def Reads (l : Leaf) (iso : Nat) : Prop :=
  ∃ index, some index ∈ n.getReaders iso ∧ n.leaves[index]? = some l

/-- Isos that the engine can drive with a constant from the initial ones, in any order. -/
inductive Forced : Nat → Bool → Prop
  | zero (iso : Nat) (initial : iso ∈ (collectConstants n).zero) : Forced iso false
  | one (iso : Nat) (initial : iso ∈ (collectConstants n).one) : Forced iso true
  | leaf (k : Constants) (l : Leaf) (read iso : Nat) (value : Bool)
      (zeros : ∀ known ∈ k.zero, Forced known false) (ones : ∀ known ∈ k.one, Forced known true)
      (reads : Reads n l read) (known : isKnown k read = true)
      (found : outcome truthTableEngine n k l = .ok (some (iso, value))) : Forced iso value

/-- Constants that can be known during the analysis. -/
structure Known (k : Constants) : Prop where
  zeros : ∀ iso ∈ k.zero, Forced truthTableEngine n iso false
  ones : ∀ iso ∈ k.one, Forced truthTableEngine n iso true

/-- A constant on `iso` makes some reader of it drive `next` with a constant. -/
def Feeds (iso next : Nat) : Prop :=
  ∃ k l value, Known truthTableEngine n k ∧ Reads n l iso ∧ isKnown k iso = true ∧
    outcome truthTableEngine n k l = .ok (some (next, value))

/-- No forced constant feeds itself. -/
def NoForcedFeedback : Prop := ∀ iso, ¬ Relation.TransGen (Feeds truthTableEngine n) iso iso

/-- The analysis ends: normally, or with an exception. -/
def Terminates : Prop := ∃ fuel, performConstantPropagationAnalysis truthTableEngine n fuel ≠ .ok none

/-! ### One reader, one round -/

structure Grows (s s' : State) : Prop where
  zeros : ∀ iso ∈ s.constants.zero, iso ∈ s'.constants.zero
  ones : ∀ iso ∈ s.constants.one, iso ∈ s'.constants.one
  news : ∀ iso ∈ s.constantsNew, iso ∈ s'.constantsNew
  freshZeros : ∀ iso ∈ s'.constants.zero, iso ∈ s.constants.zero ∨ iso ∈ s'.constantsNew
  freshOnes : ∀ iso ∈ s'.constants.one, iso ∈ s.constants.one ∨ iso ∈ s'.constantsNew

theorem isKnown_iff (k : Constants) (iso : Nat) : isKnown k iso = true ↔ iso ∈ k.zero ∨ iso ∈ k.one := by
  simp [isKnown]

theorem isKnown_addConstant (k : Constants) (iso other : Nat) (value : Bool) :
    isKnown (addConstant k iso value) other = true ↔ other = iso ∨ isKnown k other = true := by
  rw [isKnown_iff, isKnown_iff]
  cases value
  · simp [addConstant, or_assoc]
  · simp only [addConstant, if_true, mem_insertIso]
    exact or_left_comm

theorem Grows.refl (s : State) : Grows s s :=
  ⟨fun _ member => member, fun _ member => member, fun _ member => member, fun _ member => Or.inl member,
    fun _ member => Or.inl member⟩

theorem Grows.trans (s t u : State) (first : Grows s t) (second : Grows t u) : Grows s u := by
  refine ⟨?_, ?_, ?_, ?_, ?_⟩
  · intro iso member
    exact second.zeros iso (first.zeros iso member)
  · intro iso member
    exact second.ones iso (first.ones iso member)
  · intro iso member
    exact second.news iso (first.news iso member)
  · intro iso member
    rcases second.freshZeros iso member with earlier | new
    · exact (first.freshZeros iso earlier).imp_right (second.news iso)
    · exact Or.inr new
  · intro iso member
    rcases second.freshOnes iso member with earlier | new
    · exact (first.freshOnes iso earlier).imp_right (second.news iso)
    · exact Or.inr new

/-- What one reader does to the state. -/
theorem processReader_cases (s s' : State) (reader : Option Nat)
    (done : processReader truthTableEngine n s reader = .ok s') :
    (∃ index l, reader = some index ∧ n.leaves[index]? = some l ∧
      ((outcome truthTableEngine n s.constants l = .ok none ∧ s'.constants = s.constants ∧
        s'.constantsNew = s.constantsNew) ∨
      ∃ iso value, outcome truthTableEngine n s.constants l = .ok (some (iso, value)) ∧
        s'.constants = addConstant s.constants iso value ∧
        s'.constantsNew = insertIso iso s.constantsNew)) ∨
    (s' = s ∧ ∀ index, reader = some index → n.leaves[index]? = none) := by
  unfold processReader at done
  split at done
  · next absent =>
      refine Or.inr ⟨(Except.ok.inj done).symm, ?_⟩
      intro index same
      rw [same, Option.bind_some] at absent
      exact Option.map_eq_none_iff.mp absent
  · next index l present =>
      obtain ⟨position, same, lookup⟩ := Option.bind_eq_some_iff.mp present
      obtain ⟨leaf, found, pair⟩ := Option.map_eq_some_iff.mp lookup
      simp only [Prod.mk.injEq] at pair
      obtain ⟨rfl, rfl⟩ := pair
      refine Or.inl ⟨position, leaf, same, found, ?_⟩
      simp only [bind, Except.bind, pure, Except.pure] at done
      split at done
      · contradiction
      next result evaluated =>
        split at done
        · rw [← Except.ok.inj done]
          exact Or.inl ⟨evaluated, rfl, rfl⟩
        · next iso value =>
            rw [← Except.ok.inj done]
            exact Or.inr ⟨iso, value, evaluated, rfl, rfl⟩

theorem grows_addConstant (s s' : State) (iso : Nat) (value : Bool)
    (constants : s'.constants = addConstant s.constants iso value)
    (news : s'.constantsNew = insertIso iso s.constantsNew) : Grows s s' := by
  refine ⟨?_, ?_, ?_, ?_, ?_⟩
  · intro other member
    rw [constants]
    cases value <;> simp [addConstant, member]
  · intro other member
    rw [constants]
    cases value <;> simp [addConstant, member]
  · intro other member
    rw [news, mem_insertIso]
    exact Or.inr member
  · intro other member
    rw [constants] at member
    rw [news, mem_insertIso]
    cases value with
    | false => exact ((mem_insertIso iso other _).mp member).symm.imp_right Or.inl
    | true => exact Or.inl member
  · intro other member
    rw [constants] at member
    rw [news, mem_insertIso]
    cases value with
    | false => exact Or.inl member
    | true => exact ((mem_insertIso iso other _).mp member).symm.imp_right Or.inl

theorem processReader_grows (s s' : State) (reader : Option Nat)
    (done : processReader truthTableEngine n s reader = .ok s') : Grows s s' := by
  rcases processReader_cases truthTableEngine n s s' reader done with
    ⟨index, l, -, -, ⟨-, constants, news⟩ | ⟨iso, value, -, constants, news⟩⟩ | ⟨rfl, -⟩
  · have same := Grows.refl s
    refine ⟨?_, ?_, ?_, ?_, ?_⟩
    · rw [constants]
      exact same.zeros
    · rw [constants]
      exact same.ones
    · rw [news]
      exact same.news
    · rw [constants, news]
      exact same.freshZeros
    · rw [constants, news]
      exact same.freshOnes
  · exact grows_addConstant s s' iso value constants news
  · exact Grows.refl s'

theorem processIso_grows (s s' : State) (iso : Nat)
    (done : (n.getReaders iso).foldlM (processReader truthTableEngine n) s = .ok s') : Grows s s' :=
  (Worklist.foldlM_visits (processReader truthTableEngine n) Grows Grows.refl Grows.trans
    (fun s reader s' step => processReader_grows truthTableEngine n s s' reader step) (n.getReaders iso) s s'
    done).1

theorem round_eq (s s' : State) (w w' : Isos) (done : round truthTableEngine n s w = .ok (s', w')) :
    w' = s'.constantsNew ∧
      w.foldlM (fun s iso => (n.getReaders iso).foldlM (processReader truthTableEngine n) s)
        { s with constantsNew := [] } = .ok s' := by
  simp only [round, bind, Except.bind, pure, Except.pure] at done
  split at done
  · contradiction
  next result folded =>
    have same := Except.ok.inj done
    simp only [Prod.mk.injEq] at same
    obtain ⟨rfl, rfl⟩ := same
    exact ⟨rfl, folded⟩

/-! ### No feedback is enough -/

/-- The isos the analysis can put on its worklist. -/
def driveableIsos : List Nat :=
  DNLID_MAX :: (initialWorklist n ++ n.leaves.flatMap (fun l => l.outputs.map LeafTerm.iso))

theorem mem_foldl_insertIso (isos start : List Nat) (iso : Nat) :
    iso ∈ isos.foldl (fun isos iso => insertIso iso isos) start ↔ iso ∈ isos ∨ iso ∈ start := by
  induction isos generalizing start with
  | nil => simp
  | cons head rest ih =>
      rw [List.foldl_cons, ih, mem_insertIso, List.mem_cons, or_left_comm, or_assoc]

theorem mem_initialWorklist (iso : Nat) :
    iso ∈ initialWorklist n ↔ isKnown (collectConstants n) iso = true := by
  unfold initialWorklist
  rw [mem_foldl_insertIso, List.mem_append, isKnown_iff]
  simp

/-- A leaf only drives an output of its own, or nothing. -/
theorem outcome_iso (k : Constants) (l : Leaf) (iso : Nat) (value : Bool)
    (found : outcome truthTableEngine n k l = .ok (some (iso, value))) :
    iso = DNLID_MAX ∨ iso ∈ l.outputs.map LeafTerm.iso := by
  have first : ((l.outputs.head?).map LeafTerm.iso).getD DNLID_MAX = DNLID_MAX ∨
      ((l.outputs.head?).map LeafTerm.iso).getD DNLID_MAX ∈ l.outputs.map LeafTerm.iso := by
    cases l.outputs with
    | nil => exact Or.inl rfl
    | cons head rest => exact Or.inr List.mem_cons_self
  obtain ⟨-, -, rfl⟩ := (outcome_eq_some truthTableEngine n k l iso value).mp found
  unfold outputIso
  simp only
  split
  · exact first
  · cases named : l.q with
    | none => exact first
    | some t =>
        have inQ := List.mem_of_getLast? named
        exact Or.inr (List.mem_map_of_mem (List.mem_filter.mp inQ).1)

/-- What holds of the state and the worklist between two rounds. -/
structure Underway (s : State) (w : Isos) : Prop where
  known : Known truthTableEngine n s.constants
  listed : ∀ iso ∈ w, isKnown s.constants iso = true
  driveable : ∀ iso ∈ w, iso ∈ driveableIsos n

theorem known_addConstant (k : Constants) (iso : Nat) (value : Bool) (known : Known truthTableEngine n k)
    (forced : Forced truthTableEngine n iso value) : Known truthTableEngine n (addConstant k iso value) := by
  cases value with
  | false =>
      refine ⟨?_, known.ones⟩
      intro other member
      rcases (mem_insertIso iso other k.zero).mp member with rfl | old
      · exact forced
      · exact known.zeros other old
  | true =>
      refine ⟨known.zeros, ?_⟩
      intro other member
      rcases (mem_insertIso iso other k.one).mp member with rfl | old
      · exact forced
      · exact known.ones other old

/-- During the round of worklist `w`: every new item is fed by an item of `w`. -/
structure InRound (w : Isos) (s : State) : Prop where
  known : Known truthTableEngine n s.constants
  listed : ∀ iso ∈ w, isKnown s.constants iso = true
  fed : ∀ iso ∈ s.constantsNew, isKnown s.constants iso = true ∧ iso ∈ driveableIsos n ∧
    ∃ earlier ∈ w, Feeds truthTableEngine n earlier iso

theorem processReader_inRound (w : Isos) (s s' : State) (iso : Nat) (reader : Option Nat)
    (member : iso ∈ w) (inReaders : reader ∈ n.getReaders iso) (before : InRound truthTableEngine n w s)
    (done : processReader truthTableEngine n s reader = .ok s') : InRound truthTableEngine n w s' := by
  rcases processReader_cases truthTableEngine n s s' reader done with
    ⟨index, l, rfl, found, ⟨-, constants, news⟩ | ⟨next, value, evaluated, constants, news⟩⟩ | ⟨rfl, -⟩
  · refine ⟨?_, ?_, ?_⟩
    · rw [constants]
      exact before.known
    · rw [constants]
      exact before.listed
    · rw [constants, news]
      exact before.fed
  · have reads : Reads n l iso := ⟨index, inReaders, found⟩
    have listed := before.listed iso member
    have forced : Forced truthTableEngine n next value :=
      Forced.leaf s.constants l iso next value before.known.zeros before.known.ones reads listed evaluated
    have feeds : Feeds truthTableEngine n iso next :=
      ⟨s.constants, l, value, before.known, reads, listed, evaluated⟩
    have kept (other : Nat) (was : isKnown s.constants other = true) :
        isKnown s'.constants other = true := by
      rw [constants, isKnown_addConstant]
      exact Or.inr was
    refine ⟨?_, ?_, ?_⟩
    · rw [constants]
      exact known_addConstant truthTableEngine n _ _ _ before.known forced
    · intro other inList
      exact kept other (before.listed other inList)
    · intro other inNews
      rw [news, mem_insertIso] at inNews
      rcases inNews with rfl | old
      · refine ⟨?_, ?_, iso, member, feeds⟩
        · rw [constants, isKnown_addConstant]
          exact Or.inl rfl
        · unfold driveableIsos
          rcases outcome_iso truthTableEngine n s.constants l other value evaluated with rfl | output
          · exact List.mem_cons_self
          · apply List.mem_cons_of_mem
            apply List.mem_append_right
            exact List.mem_flatMap.mpr ⟨l, List.mem_of_getElem? found, output⟩
      · obtain ⟨was, driveable, source⟩ := before.fed other old
        exact ⟨kept other was, driveable, source⟩
  · exact before

theorem round_underway (s s' : State) (w w' : Isos) (before : Underway truthTableEngine n s w)
    (done : round truthTableEngine n s w = .ok (s', w')) :
    Underway truthTableEngine n s' w' ∧ ∀ next ∈ w', ∃ iso ∈ w, Feeds truthTableEngine n iso next := by
  obtain ⟨rfl, folded⟩ := round_eq truthTableEngine n s s' w w' done
  have after : InRound truthTableEngine n w s' := by
    apply Worklist.foldlM_keeps _ (InRound truthTableEngine n w) w _ { s with constantsNew := [] } s' _ folded
    · intro iso member t t' inside iterated
      apply Worklist.foldlM_keeps _ (InRound truthTableEngine n w) _ _ t t' inside iterated
      intro reader inReaders u u' during step
      exact processReader_inRound truthTableEngine n w u u' iso reader member inReaders during step
    · exact ⟨before.known, before.listed, fun _ member => absurd member List.not_mem_nil⟩
  refine ⟨⟨after.known, ?_, ?_⟩, ?_⟩
  · intro iso member
    exact (after.fed iso member).1
  · intro iso member
    exact (after.fed iso member).2.1
  · intro iso member
    exact (after.fed iso member).2.2

theorem underway_initial : Underway truthTableEngine n (initialState n) (initialWorklist n) := by
  refine ⟨⟨Forced.zero, Forced.one⟩, ?_, ?_⟩
  · intro iso member
    exact (mem_initialWorklist n iso).mp member
  · intro iso member
    exact List.mem_cons_of_mem _ (List.mem_append_left _ member)

theorem terminates_of_noForcedFeedback (acyclic : NoForcedFeedback truthTableEngine n) :
    Terminates truthTableEngine n :=
  ⟨_, Worklist.run_ne_none acyclic (fun _ _ underway => underway.driveable)
    (fun s w s' w' before done => round_underway truthTableEngine n s s' w w' before done)
    (initialState n) (initialWorklist n) (underway_initial truthTableEngine n)⟩

/-! ### Feedback never ends -/

/-- The engine answers for every leaf, and an answer stays when more of the isos the leaf is a
reader of are known. -/
def Stable : Prop :=
  ∀ l ∈ n.leaves, ∀ k k', Known truthTableEngine n k → Known truthTableEngine n k' →
    (∀ iso, Reads n l iso → (iso ∈ k.zero → iso ∈ k'.zero) ∧ (iso ∈ k.one → iso ∈ k'.one)) →
    (∃ result, outcome truthTableEngine n k l = .ok result) ∧
      ∀ iso value, outcome truthTableEngine n k l = .ok (some (iso, value)) →
        outcome truthTableEngine n k' l = .ok (some (iso, value))

variable {truthTableEngine n}

theorem Stable.answers (stable : Stable truthTableEngine n) (k : Constants) (l : Leaf)
    (known : Known truthTableEngine n k) (member : l ∈ n.leaves) :
    ∃ result, outcome truthTableEngine n k l = .ok result :=
  (stable l member k k known known (fun _ _ => ⟨id, id⟩)).1

theorem Stable.processReader_ok (stable : Stable truthTableEngine n) (s : State) (reader : Option Nat)
    (known : Known truthTableEngine n s.constants) :
    ∃ s', processReader truthTableEngine n s reader = .ok s' := by
  unfold processReader
  split
  · exact ⟨s, rfl⟩
  · next index l present =>
      obtain ⟨position, -, lookup⟩ := Option.bind_eq_some_iff.mp present
      obtain ⟨leaf, found, pair⟩ := Option.map_eq_some_iff.mp lookup
      simp only [Prod.mk.injEq] at pair
      obtain ⟨rfl, rfl⟩ := pair
      obtain ⟨result, answered⟩ := stable.answers s.constants leaf known (List.mem_of_getElem? found)
      rw [answered]
      cases result with
      | none => exact ⟨_, rfl⟩
      | some pair => exact ⟨_, rfl⟩

theorem Stable.round_ok (stable : Stable truthTableEngine n) (s : State) (w : Isos)
    (before : Underway truthTableEngine n s w) :
    ∃ s' w', round truthTableEngine n s w = .ok (s', w') ∧ Underway truthTableEngine n s' w' := by
  have folded : ∃ s', w.foldlM
      (fun s iso => (n.getReaders iso).foldlM (processReader truthTableEngine n) s)
      { s with constantsNew := [] } = .ok s' ∧ InRound truthTableEngine n w s' := by
    apply Worklist.foldlM_total
    · intro iso member t inside
      apply Worklist.foldlM_total _ _ _ _ t inside
      intro reader inReaders u during
      obtain ⟨u', step⟩ := stable.processReader_ok u reader during.known
      exact ⟨u', step, processReader_inRound truthTableEngine n w u u' iso reader member inReaders during step⟩
    · exact ⟨before.known, before.listed, fun _ member => absurd member List.not_mem_nil⟩
  obtain ⟨s', done, -⟩ := folded
  have ended : round truthTableEngine n s w = .ok (s', s'.constantsNew) := by
    simp only [round, bind, Except.bind, pure, Except.pure]
    rw [done]
  exact ⟨s', s'.constantsNew, ended, (round_underway truthTableEngine n s s' w _ before ended).1⟩

/-- In a round every reader of every item is looked at, with constants between those at the
start and those at the end of the round. -/
theorem round_visits (s s' : State) (w w' : Isos) (done : round truthTableEngine n s w = .ok (s', w'))
    (after : Known truthTableEngine n s'.constants) (l : Leaf) (iso : Nat) (member : iso ∈ w)
    (reads : Reads n l iso) :
    ∃ k, Known truthTableEngine n k ∧ (∀ other ∈ s.constants.zero, other ∈ k.zero) ∧
      (∀ other ∈ s.constants.one, other ∈ k.one) ∧
      ∀ next value, outcome truthTableEngine n k l = .ok (some (next, value)) →
        next ∈ w' ∧ if value then next ∈ s'.constants.one else next ∈ s'.constants.zero := by
  obtain ⟨rfl, folded⟩ := round_eq truthTableEngine n s s' w w' done
  obtain ⟨index, inReaders, found⟩ := reads
  obtain ⟨-, outer⟩ := Worklist.foldlM_visits _ Grows Grows.refl Grows.trans
    (fun s iso s' step => processIso_grows truthTableEngine n s s' iso step) w _ s' folded
  obtain ⟨before, later, upTo, iterated, onward⟩ := outer iso member
  obtain ⟨-, inner⟩ := Worklist.foldlM_visits _ Grows Grows.refl Grows.trans
    (fun s reader s' step => processReader_grows truthTableEngine n s s' reader step) (n.getReaders iso)
    before later iterated
  obtain ⟨t, t', reached, step, rest⟩ := inner (some index) inReaders
  have start := Grows.trans _ _ _ upTo reached
  have finish := Grows.trans _ _ _ rest onward
  have whole := Grows.trans _ _ _ (processReader_grows truthTableEngine n t t' _ step) finish
  refine ⟨t.constants, ⟨fun other known => after.zeros other (whole.zeros other known),
    fun other known => after.ones other (whole.ones other known)⟩, start.zeros, start.ones, ?_⟩
  intro next value evaluated
  rcases processReader_cases truthTableEngine n t t' (some index) step with
    ⟨position, leaf, same, lookup, ⟨silent, -, -⟩ | ⟨written, v, answered, constants, news⟩⟩ | ⟨-, absent⟩
  · rw [← Option.some.inj same, found, Option.some.injEq] at lookup
    rw [← lookup, evaluated] at silent
    exact absurd (Except.ok.inj silent) nofun
  · rw [← Option.some.inj same, found, Option.some.injEq] at lookup
    rw [← lookup, evaluated, Except.ok.injEq, Option.some.injEq, Prod.mk.injEq] at answered
    obtain ⟨rfl, rfl⟩ := answered
    refine ⟨finish.news next (by simp [news]), ?_⟩
    cases value with
    | false => exact finish.zeros next (by simp [constants, addConstant])
    | true => exact finish.ones next (by simp [constants, addConstant])
  · rw [absent index rfl] at found
    contradiction

section Ended
variable (trace : Worklist.Trace (round truthTableEngine n) (initialState n) (initialWorklist n))

theorem trace_underway (t : Nat) (le : t ≤ trace.last) :
    Underway truthTableEngine n (trace.at_ t).1 (trace.at_ t).2 :=
  trace.keeps (Underway truthTableEngine n)
    (fun s w s' w' before done => (round_underway truthTableEngine n s s' w w' before done).1)
    (underway_initial truthTableEngine n) t le

theorem trace_grows (t : Nat) (less : t < trace.last) :
    Grows { (trace.at_ t).1 with constantsNew := [] } (trace.at_ (t + 1)).1 ∧
      (trace.at_ (t + 1)).2 = (trace.at_ (t + 1)).1.constantsNew := by
  obtain ⟨listed, folded⟩ := round_eq truthTableEngine n _ _ _ _ (trace.rounds t less)
  refine ⟨(Worklist.foldlM_visits _ Grows Grows.refl Grows.trans
    (fun s iso s' step => processIso_grows truthTableEngine n s s' iso step) _ _ _ folded).1, listed⟩

/-- A constant was on the worklist at some round. -/
theorem listed_of_known (t : Nat) (le : t ≤ trace.last) (iso : Nat)
    (known : isKnown (trace.at_ t).1.constants iso = true) : ∃ t' ≤ t, iso ∈ (trace.at_ t').2 := by
  induction t with
  | zero =>
      refine ⟨0, Nat.le_refl 0, ?_⟩
      rw [trace.start] at known ⊢
      exact (mem_initialWorklist n iso).mpr known
  | succ t ih =>
      obtain ⟨grows, listed⟩ := trace_grows trace t (by omega)
      have earlier : isKnown (trace.at_ t).1.constants iso = true ∨ iso ∈ (trace.at_ (t + 1)).2 := by
        rw [listed, isKnown_iff]
        rcases (isKnown_iff _ _).mp known with zero | one
        · exact (grows.freshZeros iso zero).imp_left Or.inl
        · exact (grows.freshOnes iso one).imp_left Or.inr
      rcases earlier with old | new
      · obtain ⟨t', before, member⟩ := ih (by omega) old
        exact ⟨t', by omega, member⟩
      · exact ⟨t + 1, Nat.le_refl _, new⟩

/-- A constant that is on no worklist from some round on was known before. -/
theorem known_earlier (iso from_ t : Nat) (le : t ≤ trace.last) (after : from_ ≤ t)
    (quiet : ∀ t', from_ < t' → t' ≤ t → iso ∉ (trace.at_ t').2) :
    (iso ∈ (trace.at_ t).1.constants.zero → iso ∈ (trace.at_ from_).1.constants.zero) ∧
      (iso ∈ (trace.at_ t).1.constants.one → iso ∈ (trace.at_ from_).1.constants.one) := by
  induction t with
  | zero =>
      rw [Nat.le_zero.mp after]
      exact ⟨id, id⟩
  | succ t ih =>
      by_cases same : from_ = t + 1
      · rw [same]
        exact ⟨id, id⟩
      · obtain ⟨zeros, ones⟩ := ih (by omega) (by omega) (fun t' late before => quiet t' late (by omega))
        obtain ⟨grows, listed⟩ := trace_grows trace t (by omega)
        have unlisted := quiet (t + 1) (by omega) (Nat.le_refl _)
        rw [listed] at unlisted
        refine ⟨?_, ?_⟩
        · intro member
          exact zeros ((grows.freshZeros iso member).resolve_right unlisted)
        · intro member
          exact ones ((grows.freshOnes iso member).resolve_right unlisted)

theorem known_later (t t' : Nat) (le : t' ≤ trace.last) (before : t ≤ t') :
    (∀ iso ∈ (trace.at_ t).1.constants.zero, iso ∈ (trace.at_ t').1.constants.zero) ∧
      ∀ iso ∈ (trace.at_ t).1.constants.one, iso ∈ (trace.at_ t').1.constants.one := by
  induction t' with
  | zero =>
      rw [Nat.le_zero.mp before]
      exact ⟨fun _ member => member, fun _ member => member⟩
  | succ t' ih =>
      by_cases same : t = t' + 1
      · rw [same]
        exact ⟨fun _ member => member, fun _ member => member⟩
      · obtain ⟨zeros, ones⟩ := ih (by omega) (by omega)
        obtain ⟨grows, -⟩ := trace_grows trace t' (by omega)
        exact ⟨fun iso member => grows.zeros iso (zeros iso member),
          fun iso member => grows.ones iso (ones iso member)⟩

/-- A leaf that answers under constants known at the end has put its output on the worklist
after the last round in which something it reads was there. -/
theorem listed_after_reads (stable : Stable truthTableEngine n) (k : Constants) (l : Leaf)
    (read next : Nat) (value : Bool) (known : Known truthTableEngine n k)
    (zeros : ∀ iso ∈ k.zero, iso ∈ (trace.at_ trace.last).1.constants.zero)
    (ones : ∀ iso ∈ k.one, iso ∈ (trace.at_ trace.last).1.constants.one) (reads : Reads n l read)
    (readKnown : isKnown k read = true)
    (evaluated : outcome truthTableEngine n k l = .ok (some (next, value))) :
    ∃ t < trace.last, (∀ t' ≤ trace.last, ∀ iso, Reads n l iso → iso ∈ (trace.at_ t').2 → t' ≤ t) ∧
      next ∈ (trace.at_ (t + 1)).2 ∧
      if value then next ∈ (trace.at_ trace.last).1.constants.one
      else next ∈ (trace.at_ trace.last).1.constants.zero := by
  have knownAtEnd : isKnown (trace.at_ trace.last).1.constants read = true := by
    rw [isKnown_iff] at readKnown ⊢
    exact readKnown.imp (zeros read) (ones read)
  obtain ⟨first, before, inList⟩ := listed_of_known trace trace.last (Nat.le_refl _) read knownAtEnd
  obtain ⟨t, le, ⟨iso, readsIso, member⟩, quiet⟩ := Worklist.exists_last
    (fun t => ∃ iso, Reads n l iso ∧ iso ∈ (trace.at_ t).2) trace.last ⟨first, before, read, reads, inList⟩
  have less : t < trace.last := by
    apply Nat.lt_of_le_of_ne le
    intro same
    rw [same, trace.ended] at member
    contradiction
  obtain ⟨k', known', zeros', ones', written⟩ := round_visits _ _ _ _ (trace.rounds t less)
    (trace_underway trace (t + 1) less).known l iso member readsIso
  obtain ⟨index, -, found⟩ := reads
  have answered := (stable l (List.mem_of_getElem? found) k k' known known' (by
    intro other readsOther
    obtain ⟨sinceZero, sinceOne⟩ := known_earlier trace other t trace.last (Nat.le_refl _) le
      (fun t' late before inList => quiet t' late before ⟨other, readsOther, inList⟩)
    exact ⟨fun inZero => zeros' other (sinceZero (zeros other inZero)),
      fun inOne => ones' other (sinceOne (ones other inOne))⟩)).2 next value evaluated
  obtain ⟨onList, inConstants⟩ := written next value answered
  obtain ⟨laterZeros, laterOnes⟩ := known_later trace (t + 1) trace.last (Nat.le_refl _) less
  refine ⟨t, less, ?_, onList, ?_⟩
  · intro t' le' other readsOther inList
    by_contra late
    exact quiet t' (by omega) le' ⟨other, readsOther, inList⟩
  · cases value with
    | false => exact laterZeros next inConstants
    | true => exact laterOnes next inConstants

/-- At the end every forced constant is known. -/
theorem forced_known (stable : Stable truthTableEngine n) (iso : Nat) (value : Bool)
    (forced : Forced truthTableEngine n iso value) :
    if value then iso ∈ (trace.at_ trace.last).1.constants.one
    else iso ∈ (trace.at_ trace.last).1.constants.zero := by
  obtain ⟨zeros, ones⟩ := known_later trace 0 trace.last (Nat.le_refl _) (Nat.zero_le _)
  rw [trace.start] at zeros ones
  induction forced with
  | zero iso initial => exact zeros iso initial
  | one iso initial => exact ones iso initial
  | leaf k l read iso value forcedZeros forcedOnes reads known found ihZeros ihOnes =>
      obtain ⟨t, -, -, -, inConstants⟩ := listed_after_reads trace stable k l read iso value
        ⟨forcedZeros, forcedOnes⟩ ihZeros ihOnes reads known found
      exact inConstants

theorem feeds_later (stable : Stable truthTableEngine n) (iso next : Nat)
    (path : Relation.TransGen (Feeds truthTableEngine n) iso next) :
    ∃ t, (∀ t' ≤ trace.last, iso ∈ (trace.at_ t').2 → t' ≤ t) ∧
      ∃ u, t < u ∧ u ≤ trace.last ∧ next ∈ (trace.at_ u).2 := by
  have single (earlier later : Nat) (feeds : Feeds truthTableEngine n earlier later) :
      ∃ t < trace.last, (∀ t' ≤ trace.last, earlier ∈ (trace.at_ t').2 → t' ≤ t) ∧
        later ∈ (trace.at_ (t + 1)).2 := by
    obtain ⟨k, l, value, known, reads, readKnown, evaluated⟩ := feeds
    obtain ⟨t, less, bound, listed, -⟩ := listed_after_reads trace stable k l earlier later value known
      (fun other inZero => forced_known trace stable other false (known.zeros other inZero))
      (fun other inOne => forced_known trace stable other true (known.ones other inOne)) reads readKnown
      evaluated
    exact ⟨t, less, fun t' le' inList => bound t' le' earlier reads inList, listed⟩
  induction path with
  | single feeds =>
      obtain ⟨t, less, bound, listed⟩ := single _ _ feeds
      exact ⟨t, bound, t + 1, Nat.lt_succ_self t, less, listed⟩
  | tail path feeds ih =>
      obtain ⟨t, bound, u, after, le, listed⟩ := ih
      obtain ⟨t', less', bound', listed'⟩ := single _ _ feeds
      have late := bound' u le listed
      exact ⟨t, bound, t' + 1, by omega, less', listed'⟩

end Ended

theorem noForcedFeedback_of_terminates (stable : Stable truthTableEngine n)
    (terminates : Terminates truthTableEngine n) : NoForcedFeedback truthTableEngine n := by
  obtain ⟨fuel, ended⟩ := terminates
  obtain ⟨result, done⟩ := Worklist.run_total (round truthTableEngine n) (Underway truthTableEngine n)
    stable.round_ok fuel (initialState n) (initialWorklist n) (underway_initial truthTableEngine n)
  cases result with
  | none => exact absurd done ended
  | some s =>
      obtain ⟨trace⟩ := Worklist.exists_trace (round truthTableEngine n) fuel _ s _ done
      intro iso path
      obtain ⟨t, bound, u, after, le, listed⟩ := feeds_later trace stable iso iso path
      have early := bound u le listed
      omega

variable (truthTableEngine n)

theorem and2_kind : (TruthTable.BitData.mask 0b1000).isMask = decide (4 ≤ 64) := rfl

/-- An AND2 with inputs `a` and `b` and output `y`. -/
def and2 (a b y : Nat) : Leaf :=
  { model := 0, modelID := 0, modelName := "AND2", vector := .none,
    terms := [⟨0, "A", .Input, a⟩, ⟨1, "B", .Input, b⟩, ⟨2, "Y", .Output, y⟩],
    tables := [none, none, some { size := 2, bits := ⟨4, .mask 0b1000, and2_kind⟩, dependencies := [0b11] }],
    modelTable := .ok {} }

/-- Iso 0 is a constant 0 and iso 1 is undriven; the gate drives iso 2. -/
def openAnd : Netlist := ⟨[and2 0 1 2], [[some 0], [some 0], []], [0], [], none, none⟩

/-- The output of the gate is its second input. -/
def loopedAnd : Netlist := ⟨[and2 0 1 1], [[some 0], [some 0]], [0], [], none, none⟩

end Naja.ConstantPropagation
