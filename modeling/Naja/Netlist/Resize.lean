import Naja.Netlist.Removal

/-! `setMSB` and `setLSB` of bus terms and bus nets. A bus loses the bits at one end:
all checks come first, then the terminals of these bits go, and the terminals of the
bits that stay move to their new flat IDs. -/

namespace Naja.Netlist
open Naja.Registry

def isBetween (n msb lsb : Int) : Bool := decide (min msb lsb ≤ n) && decide (n ≤ max msb lsb)

/-- The first reason in a list of checks; `none` follows a null pointer. -/
def firstRefusal : List (Option (Except Refusal Unit)) → Option (Except Refusal Unit)
  | [] => some (.ok ())
  | none :: _ => none
  | some (.error reason) :: _ => some (.error reason)
  | some (.ok ()) :: rest => firstRefusal rest

def Component.isInstTerm : Component → Bool
  | .instTerm _ _ => true
  | .bitTerm _ => false

namespace World
variable (w : World)

/-- `isConstant` of a bit net. -/
def isConstant (d : Design) (n : BitNet) : Bool :=
  (d.nets.entry n.net).any (fun e =>
    (e.data.types[position e.data.range n.bit]?).any (fun type => type != .Standard))

/-- The check on a bit term that goes. -/
def checkRemovedBit (d : Design) (b : BitTerm) : Except Refusal Unit :=
  match d.links.netOf (.bitTerm b) with
  | none => .ok ()
  | some n =>
      if ¬ isConstant d n then .error .nonConstantNet
      else if (d.links.components n).any Component.isInstTerm then .error .netOnInstances
      else .ok ()

/-- The check on the terminal of such a bit. -/
def checkRemovedInstTerm (d : Design) (i : Entry InstData) (flatID : Nat) : Option (Except Refusal Unit) :=
  match i.data.table[flatID]? with
  | none => none
  | some none => some (.ok ())
  | some (some _) =>
      if (d.links.netOf (.instTerm i.object flatID)).isSome then some (.error .instTermConnected) else some (.ok ())

/-- The instances of design `m` in one design. -/
def slavesIn (m : Nat) (d : Design) : List (Entry InstData) := d.instances.set.filter (fun e => e.data.model == m)

def checkResize (m : Nat) (d : Design) (t : Entry TermData) (removed : List Int) : Option (Except Refusal Unit) :=
  let bits := removed.map (fun bit => (getTermBit t bit).map (checkRemovedBit d))
  let flatIDs := removed.map (fun bit => t.data.flatID + position t.data.range bit)
  let terminals := if d.isPrimitive then []
    else w.designs.flatMap (fun x => (slavesIn m x).flatMap (fun i => flatIDs.map (checkRemovedInstTerm x i)))
  firstRefusal (bits ++ terminals)

/-- `instTerms_[target] = instTerms_[source]`, after which the source is null. -/
def moveInstTerm (inst : Address) (d : Design) (source target : Nat) : Option Design :=
  match (d.instances.entry inst).bind (fun e => e.data.table[source]?) with
  | none => none
  | some entry =>
      let place (data : InstData) : InstData := { data with table := (data.table.set target entry).set source none }
      some { d with
        links := d.links.move (.instTerm inst source) (.instTerm inst target)
        instances := d.instances.modify inst place }

/-- The loop of `setMSB` over the bits that stay. -/
def moveTerminals (m base count width : Nat) (d : Design) : Option Design :=
  ((slavesIn m d).map Entry.object).foldlM (fun d inst =>
    (List.range (width - count)).foldlM (fun d i => moveInstTerm inst d (base + count + i) (base + i)) d) d

/-- The bus gets its new range, and loses the bits that are in the old one only. -/
def shrinkTerm (m : Nat) (d : Design) (t : Entry TermData) (removed : List Int) (range : Int × Int) :
    Option World :=
  let bits := removed.map (BitTerm.mk t.object)
  let cut := w.setDesign m (w.setNets d (bits.map (fun b => (.bitTerm b, none))))
  let shrink (data : TermData) : TermData := { data with range := some range }
  (cut.removeBits m d bits).map (fun designs =>
    { cut with designs := designs.modify m (fun d => { d with terms := d.terms.modify t.object shrink }) })

def setMSB (m : Nat) (term : Address) (msb : Int) : Outcome :=
  match w.designs[m]? with
  | none => .undefined
  | some d =>
      match d.terms.entry term with
      | none => .undefined
      | some t =>
          match t.data.range with
          | none => .undefined
          | some (oldMSB, lsb) =>
              if msb = oldMSB then .done w
              else if ¬ isBetween msb oldMSB lsb then .thrown .notBetween w
              else
                let removeCount := (oldMSB - msb).natAbs
                let removed := (rangeBits t.data.range).take removeCount
                match w.checkResize m d t removed with
                | none => .undefined
                | some (.error reason) => .thrown reason w
                | some (.ok ()) =>
                    match w.shrinkTerm m d t removed (msb, lsb) with
                    | none => .undefined
                    | some shrunk =>
                        if d.isPrimitive then .done shrunk
                        else match shrunk.designs.mapM (moveTerminals m t.data.flatID removeCount (width t.data.range)) with
                          | none => .undefined
                          | some designs => .done { shrunk with designs := designs }

def setLSB (m : Nat) (term : Address) (lsb : Int) : Outcome :=
  match w.designs[m]? with
  | none => .undefined
  | some d =>
      match d.terms.entry term with
      | none => .undefined
      | some t =>
          match t.data.range with
          | none => .undefined
          | some (msb, oldLSB) =>
              if lsb = oldLSB then .done w
              else if ¬ isBetween lsb msb oldLSB then .thrown .notBetween w
              else
                let removeCount := (oldLSB - lsb).natAbs
                let removed := (rangeBits t.data.range).drop (width t.data.range - removeCount)
                match w.checkResize m d t removed with
                | none => .undefined
                | some (.error reason) => .thrown reason w
                | some (.ok ()) =>
                    match w.shrinkTerm m d t removed (msb, lsb) with
                    | none => .undefined
                    | some shrunk => .done shrunk

/-- A bus net loses some bits, all of which must be without components. -/
def shrinkNet (k : Nat) (d : Design) (e : Entry NetData) (removed : List Int) (range : Int × Int)
    (types : List NetType) : Outcome :=
  let free (bit : Int) : Option (Except Refusal Unit) :=
    (getNetBit e bit).map (fun n => if (d.links.components n).isEmpty then .ok () else .error .bitConnected)
  match firstRefusal (removed.map free) with
  | none => .undefined
  | some (.error reason) => .thrown reason w
  | some (.ok ()) =>
      let shrink (data : NetData) : NetData := { data with range := some range, types := types }
      .done (w.setDesign k { d with nets := d.nets.modify e.object shrink })

def setNetMSB (k : Nat) (net : Address) (msb : Int) : Outcome :=
  match w.designs[k]? with
  | none => .undefined
  | some d =>
      match d.nets.entry net with
      | none => .undefined
      | some e =>
          match e.data.range with
          | none => .undefined
          | some (oldMSB, lsb) =>
              if msb = oldMSB then .done w
              else if ¬ isBetween msb oldMSB lsb then .thrown .notBetween w
              else
                let removeCount := (oldMSB - msb).natAbs
                w.shrinkNet k d e ((rangeBits e.data.range).take removeCount) (msb, lsb) (e.data.types.drop removeCount)

def setNetLSB (k : Nat) (net : Address) (lsb : Int) : Outcome :=
  match w.designs[k]? with
  | none => .undefined
  | some d =>
      match d.nets.entry net with
      | none => .undefined
      | some e =>
          match e.data.range with
          | none => .undefined
          | some (msb, oldLSB) =>
              if lsb = oldLSB then .done w
              else if ¬ isBetween lsb msb oldLSB then .thrown .notBetween w
              else
                let staying := width e.data.range - (oldLSB - lsb).natAbs
                w.shrinkNet k d e ((rangeBits e.data.range).drop staying) (msb, lsb) (e.data.types.take staying)

end World

end Naja.Netlist
