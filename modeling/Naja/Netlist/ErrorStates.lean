import Naja.Netlist.Resize
import Naja.Netlist.Runs

/-! What an exception leaves behind. All calls check their arguments before they change
anything, only `setTermsNets` of an instance checks one pair of a terminal and a net after
it has connected the pairs before. -/

namespace Naja.Netlist
open Naja.Registry

/-- `setTermsNets` of an instance. A terminal comes with the design of its term, and a net with its own. -/
def World.setInstTermsNets (w : World) (k : Nat) (inst : Address) (terms : List (Option (Nat × BitTerm)))
    (nets : List (Option (Nat × BitNet))) : Outcome :=
  match w.designs[k]? with
  | none => .undefined
  | some d => if terms.length ≠ nets.length then .thrown .sizes w else w.setTermsNets k inst d (terms.zip nets)

/-! ### What is claimed -/

/-- Connections, term ranges and models of instances are the same. -/
structure Design.Unchanged (d d' : Design) : Prop where
  components : ∀ n c, c ∈ d'.links.components n ↔ c ∈ d.links.components n
  nets : ∀ c, d'.links.netOf c = d.links.netOf c
  terms : d'.terms = d.terms
  models : d'.instances.set.map (fun i => (i.object, i.data.model)) = d.instances.set.map (fun i => (i.object, i.data.model))

def World.Unchanged (w w' : World) : Prop := List.Forall₂ Design.Unchanged w.designs w'.designs

theorem Design.Unchanged.refl (d : Design) : d.Unchanged d := ⟨fun _ _ => .rfl, fun _ => rfl, rfl, rfl⟩

theorem World.Unchanged.refl (w : World) : w.Unchanged w := List.forall₂_same.mpr (fun d _ => .refl d)

theorem unchanged_modify (w : World) (k : Nat) (f : Design → Design) (same : ∀ d : Design, d.Unchanged (f d)) :
    w.Unchanged (w.modifyDesign k f) := by
  refine List.forall₂_iff_get.mpr ⟨(List.length_modify ..).symm, ?_⟩
  intro i here here'
  simp only [World.modifyDesign, List.get_eq_getElem, List.getElem_modify]
  split
  · exact same _
  · exact .refl _

/-! ### Calls that check first -/

section checked
variable (w w' : World) (reason : Refusal)

/-- Before `setModel` throws it may move terminals to the bits of the new model, and nothing that is listed. -/
theorem setModel_unchanged (k : Nat) (inst : Address) (model : Nat)
    (thrown : w.setModel k inst model = .thrown reason w') : w.Unchanged w' := by
  have moved (i : Entry InstData) (table : List (Option BitTerm)) :
      w.Unchanged (w.modifyDesign k (fun d =>
        { d with instances := d.instances.modify inst (fun data => { data with table := table }) })) := by
    apply unchanged_modify
    intro d
    refine ⟨fun _ _ => .rfl, fun _ => rfl, rfl, ?_⟩
    change (d.instances.set.map _).map _ = _
    rw [List.map_map]
    apply List.map_congr_left
    intro e _
    rw [Function.comp_apply]
    split <;> rfl
  unfold World.setModel at thrown
  split at thrown
  · cases thrown
  · next i _ =>
      split at thrown
      · cases thrown
      · split at thrown
        · split at thrown
          · cases thrown
            exact .refl w
          · split at thrown
            · cases thrown
              exact .refl w
            · split at thrown
              · cases thrown
                exact .refl w
              · split at thrown
                · cases thrown
                  exact .refl w
                · simp only at thrown
                  split at thrown
                  · cases thrown
                    exact moved i _
                  · split at thrown
                    · cases thrown
                      exact moved i _
                    · cases thrown
        · cases thrown

/-- An exception comes before the first change. -/
def Outcome.ThrownBefore (w : World) : Outcome → Prop
  | .thrown _ w' => w' = w
  | _ => True

theorem unchanged_of_thrownBefore (o : Outcome) (before : o.ThrownBefore w) (thrown : o = .thrown reason w') :
    w.Unchanged w' := by
  subst thrown
  have same : w' = w := before
  exact same ▸ .refl w

theorem setMSB_thrownBefore (m : Nat) (term : Address) (msb : Int) : (w.setMSB m term msb).ThrownBefore w := by
  unfold World.setMSB
  split
  · trivial
  · split
    · trivial
    · next t _ =>
        split
        · trivial
        · next oldMSB lsb _ =>
            split
            · trivial
            · split
              · rfl
              · simp only
                cases w.checkResize m _ t (List.take (oldMSB - msb).natAbs (rangeBits t.data.range)) with
                | none => trivial
                | some checked =>
                    cases checked with
                    | error reason => rfl
                    | ok _ =>
                        simp only
                        split
                        · trivial
                        · split
                          · trivial
                          · split <;> trivial

theorem setLSB_thrownBefore (m : Nat) (term : Address) (lsb : Int) : (w.setLSB m term lsb).ThrownBefore w := by
  unfold World.setLSB
  split
  · trivial
  · split
    · trivial
    · split
      · trivial
      · split
        · trivial
        · split
          · rfl
          · simp only
            split
            · trivial
            · rfl
            · split <;> trivial

theorem setBusTermNet_thrownBefore (k : Nat) (term : Address) (net : Option World.NetArgument) :
    (w.setBusTermNet k term net).ThrownBefore w := by
  unfold World.setBusTermNet
  split
  · trivial
  · split
    · trivial
    · split
      · trivial
      · split
        · rfl
        · split
          · split
            · rfl
            · split
              · trivial
              · split <;> trivial
          · split
            · trivial
            · split
              · rfl
              · trivial

end checked

/-! ### Calls that connect pair by pair -/

section pairs
variable (w : World) (k : Nat) (inst : Address)

/-- A terminal of another model, or a net of another design. -/
def rejected (m : Nat) (pair : Option (Nat × BitTerm) × Option (Nat × BitNet)) : Bool :=
  pair.1.any (fun b => b.1 != m) || pair.2.any (fun n => n.1 != k)

/-- The pairs before the first one that is rejected. -/
def accepted (m : Nat) (pairs : List (Option (Nat × BitTerm) × Option (Nat × BitNet))) :
    List (Option (Nat × BitTerm) × Option (Nat × BitNet)) :=
  pairs.takeWhile (fun pair => !rejected k m pair)

/-- The terminal of a pair, by the flat ID of its term, with the net it is to get. -/
def World.connection (pair : Option (Nat × BitTerm) × Option (Nat × BitNet)) : Option (Component × Option BitNet) :=
  pair.1.bind (fun b => ((w.designs[b.1]?).bind (fun model => model.getFlatID b.2)).map (fun flatID =>
    (.instTerm inst flatID, pair.2.map Prod.snd)))

/-- Of the pairs before the first that is rejected, the last one of each terminal has the net that the terminal
is on. -/
def Restored (d : Design) (m : Nat) (pairs : List (Option (Nat × BitTerm) × Option (Nat × BitNet))) : Prop :=
  ∀ c net, lastNet ((accepted k m pairs).filterMap (w.connection inst)) c = some net → d.links.netOf c = net

/-- The pairs before the first that is rejected are connected. -/
theorem setTermsNets_thrown (reason : Refusal) (w' : World) (i : Entry InstData)
    (pairs : List (Option (Nat × BitTerm) × Option (Nat × BitNet))) (d : Design)
    (foundInst : d.instances.entry inst = some i) (thrown : w.setTermsNets k inst d pairs = .thrown reason w') :
    w' = w.setDesign k (w.setNets d ((accepted k i.data.model pairs).filterMap (w.connection inst))) := by
  induction pairs generalizing d with
  | nil => cases thrown
  | cons pair rest ih =>
      obtain ⟨term, net⟩ := pair
      cases term with
      | none => cases thrown
      | some argument =>
          obtain ⟨m, b⟩ := argument
          unfold World.setTermsNets at thrown
          rw [foundInst] at thrown
          simp only at thrown
          unfold accepted
          by_cases otherModel : i.data.model ≠ m
          · rw [if_pos otherModel] at thrown
            cases thrown
            have isRejected : rejected k i.data.model (some (m, b), net) = true := by
              simp [rejected, Ne.symm otherModel]
            rw [List.takeWhile_cons_of_neg (by rw [isRejected]; decide)]
            rfl
          · rw [if_neg otherModel] at thrown
            obtain rfl := not_not.mp otherModel
            by_cases otherDesign : net.any (fun n => n.1 != k) = true
            · rw [if_pos otherDesign] at thrown
              cases thrown
              have isRejected : rejected k i.data.model (some (i.data.model, b), net) = true := by
                simp [rejected, otherDesign]
              rw [List.takeWhile_cons_of_neg (by rw [isRejected]; decide)]
              rfl
            · rw [if_neg otherDesign] at thrown
              have isAccepted : rejected k i.data.model (some (i.data.model, b), net) = false := by
                simp [rejected, otherDesign]
              rw [List.takeWhile_cons_of_pos (by rw [isAccepted]; decide)]
              split at thrown
              · cases thrown
              · next flatID at_ =>
                  obtain ⟨flat, isFlat, filled⟩ := Option.bind_eq_some_iff.mp at_
                  obtain ⟨-, -, same⟩ := Option.map_eq_some_iff.mp filled
                  obtain rfl : flat = flatID := same
                  have isConnection : w.connection inst (some (i.data.model, b), net) =
                      some (.instTerm inst flat, net.map Prod.snd) := by
                    unfold World.connection
                    rw [Option.bind_some, isFlat]
                    rfl
                  rw [List.filterMap_cons_some isConnection]
                  split at thrown
                  · exact ih _ foundInst thrown
                  · cases thrown

end pairs

theorem unchanged_setDesign (w : World) (k : Nat) (d d' : Design) (found : w.designs[k]? = some d) :
    w.Unchanged (w.setDesign k d') ↔ d.Unchanged d' := by
  obtain ⟨inside, isDesign⟩ := List.getElem?_eq_some_iff.mp found
  unfold World.Unchanged World.setDesign
  rw [List.forall₂_iff_get]
  constructor
  · intro all
    have here := all.2 k inside (by rw [List.length_set]; exact inside)
    simpa [isDesign] using here
  · intro same
    refine ⟨(List.length_set ..).symm, ?_⟩
    intro i before after
    by_cases here : i = k
    · subst here
      simpa [isDesign] using same
    · simp only [List.get_eq_getElem, List.getElem_set_ne (Ne.symm here)]
      exact .refl _

theorem setInstTermsNets_unchanged_iff (w : World) (whole : w.Sound) (k : Nat) (inst : Address) (d : Design)
    (found : w.designs[k]? = some d) (i : Entry InstData) (foundInst : d.instances.entry inst = some i)
    (terms : List (Option (Nat × BitTerm))) (nets : List (Option (Nat × BitNet))) (reason : Refusal) (w' : World)
    (thrown : w.setInstTermsNets k inst terms nets = .thrown reason w') :
    w.Unchanged w' ↔ terms.length ≠ nets.length ∨ Restored w k inst d i.data.model (terms.zip nets) := by
  unfold World.setInstTermsNets at thrown
  rw [found] at thrown
  simp only at thrown
  by_cases sizes : terms.length ≠ nets.length
  · rw [if_pos sizes] at thrown
    cases thrown
    exact iff_of_true (.refl w) (.inl sizes)
  · rw [if_neg sizes] at thrown
    have after := setTermsNets_sound w whole k inst d d found rfl (whole k d found) (terms.zip nets)
    rw [thrown] at after
    obtain rfl := setTermsNets_thrown w k inst reason w' i (terms.zip nets) d foundInst thrown
    rw [unchanged_setDesign w k d _ found, or_iff_right sizes]
    unfold Restored
    generalize (accepted k i.data.model (terms.zip nets)).filterMap (w.connection inst) = moves at after ⊢
    have placed : (w.setDesign k (w.setNets d moves)).designs[k]? = some (w.setNets d moves) :=
      List.getElem?_set_self (List.getElem?_eq_some_iff.mp found).1
    have links := (after k _ placed).links
    have frame := setNets_frame w d moves
    constructor
    · intro same c net given
      have isNet := netOf_setNets w d moves c
      rw [given] at isNet
      exact (same.nets c).symm.trans isNet
    · intro restored
      have nets (c : Component) : (w.setNets d moves).links.netOf c = d.links.netOf c := by
        rw [netOf_setNets]
        cases given : lastNet moves c with
        | none => rfl
        | some net => exact (restored c net given).symm
      refine ⟨?_, nets, by rw [frame], by rw [frame]⟩
      intro n c
      rw [links.iff, nets, (whole k d found).links.iff]

/-- A call that throws leaves connections, term ranges and models as they were; for `setTermsNets` of an instance, exactly
when the pairs before the one that is rejected put nothing elsewhere. -/
theorem unchanged_on_error (w : World) (reason : Refusal) (w' : World) :
    (w.Sound → ∀ k inst d i terms nets, w.designs[k]? = some d → d.instances.entry inst = some i →
      w.setInstTermsNets k inst terms nets = .thrown reason w' →
      (w.Unchanged w' ↔ terms.length ≠ nets.length ∨ Restored w k inst d i.data.model (terms.zip nets))) ∧
    (∀ k inst model, w.setModel k inst model = .thrown reason w' → w.Unchanged w') ∧
    (∀ m term msb, w.setMSB m term msb = .thrown reason w' → w.Unchanged w') ∧
    (∀ m term lsb, w.setLSB m term lsb = .thrown reason w' → w.Unchanged w') ∧
    ∀ k term net, w.setBusTermNet k term net = .thrown reason w' → w.Unchanged w' := by
  refine ⟨?_, ?_, ?_, ?_, ?_⟩
  · intro whole k inst d i terms nets found foundInst thrown
    exact setInstTermsNets_unchanged_iff w whole k inst d found i foundInst terms nets reason w' thrown
  · intro k inst model thrown
    exact setModel_unchanged w w' reason k inst model thrown
  · intro m term msb thrown
    exact unchanged_of_thrownBefore w w' reason _ (setMSB_thrownBefore w m term msb) thrown
  · intro m term lsb thrown
    exact unchanged_of_thrownBefore w w' reason _ (setLSB_thrownBefore w m term lsb) thrown
  · intro k term net thrown
    exact unchanged_of_thrownBefore w w' reason _ (setBusTermNet_thrownBefore w k term net) thrown

/-- A cell with two inputs in a design with a net, and another design with a net. -/
def mixedRun : List Operation :=
  [.createDesign 0 .Standard "cell", .createTerm 0 none "a" .Input none, .createTerm 0 none "b" .Input none,
    .createDesign 0 .Standard "top", .createNet 1 none "n" none, .createInstance 1 0 none "u",
    .createDesign 0 .Standard "other", .createNet 2 none "m" none]

theorem mixedRun_admissible : ∃ w, AdmissibleRun (World.start [⟨"work", false⟩]) mixedRun w := by
  refine AdmissibleRun.exists_cons _ _ _ _ trivial rfl ?_
  refine AdmissibleRun.exists_cons _ _ _ _ ?_ rfl ?_
  · exact forall_of_all _ 0 (fun d => Room d.terms none) (by decide +kernel)
  refine AdmissibleRun.exists_cons _ _ _ _ ?_ rfl ?_
  · exact forall_of_all _ 0 (fun d => Room d.terms none) (by decide +kernel)
  refine AdmissibleRun.exists_cons _ _ _ _ trivial rfl ?_
  refine AdmissibleRun.exists_cons _ _ _ _ ?_ rfl ?_
  · exact forall_of_all _ 1 (fun d => Room d.nets none) (by decide +kernel)
  refine AdmissibleRun.exists_cons _ _ _ _ ?_ rfl ?_
  · exact forall_of_all _ 1 (fun d => Room d.instances none) (by decide +kernel)
  refine AdmissibleRun.exists_cons _ _ _ _ trivial rfl ?_
  refine AdmissibleRun.exists_cons _ _ _ _ ?_ rfl ?_
  · exact forall_of_all _ 2 (fun d => Room d.nets none) (by decide +kernel)
  exact ⟨_, .nil _⟩

/-- The net of the other design is rejected after the first terminal was connected. -/
theorem mixed_nets_connected : ∃ w, AdmissibleRun (World.start [⟨"work", false⟩]) mixedRun w ∧ ∃ reason w',
    w.setInstTermsNets 1 3 [some (0, ⟨0, 0⟩), some (0, ⟨1, 0⟩)] [some (1, ⟨2, 0⟩), some (2, ⟨4, 0⟩)] = .thrown reason w' ∧
    ¬w.Unchanged w' := by
  obtain ⟨w, ran⟩ := mixedRun_admissible
  have state := ran.run_eq
  have checked : ((World.start [⟨"work", false⟩]).run mixedRun).all (fun w =>
      match w.setInstTermsNets 1 3 [some (0, ⟨0, 0⟩), some (0, ⟨1, 0⟩)] [some (1, ⟨2, 0⟩), some (2, ⟨4, 0⟩)] with
      | .thrown _ w' =>
          (w.designs[1]?).any (fun d => (w'.designs[1]?).any (fun d' =>
            d'.links.netOf (.instTerm 3 0) != d.links.netOf (.instTerm 3 0)))
      | _ => false) = true := by
    decide +kernel
  rw [state, Option.all_some] at checked
  split at checked
  · next reason w' thrown =>
      refine ⟨w, ran, reason, w', thrown, ?_⟩
      intro same
      obtain ⟨d, found, inner⟩ := (Option.any_eq_true _ _).mp checked
      obtain ⟨d', found', differs⟩ := (Option.any_eq_true _ _).mp inner
      have unchanged : d.Unchanged d' := by
        obtain ⟨inside, isDesign⟩ := List.getElem?_eq_some_iff.mp found
        obtain ⟨inside', isDesign'⟩ := List.getElem?_eq_some_iff.mp found'
        have both := (List.forall₂_iff_get.mp same).2 1 inside inside'
        simpa [isDesign, isDesign'] using both
      exact bne_iff_ne.mp differs (unchanged.nets (.instTerm 3 0))
  · cases checked

/-- A rejected model leaves the state as it was. -/
theorem mixed_model_unchanged : ∃ w w', AdmissibleRun (World.start [⟨"work", false⟩]) mixedRun w ∧
    w.setModel 1 3 2 = .thrown .termCount w' ∧ w.Unchanged w' := by
  obtain ⟨w, ran⟩ := mixedRun_admissible
  have state := ran.run_eq
  have checked : ((World.start [⟨"work", false⟩]).run mixedRun).all (fun w =>
      match w.setModel 1 3 2 with
      | .thrown .termCount _ => true
      | _ => false) = true := by
    decide +kernel
  rw [state, Option.all_some] at checked
  split at checked
  · next w' thrown => exact ⟨w, w', ran, thrown, (unchanged_on_error w .termCount w').2.1 1 3 2 thrown⟩
  · cases checked

end Naja.Netlist
