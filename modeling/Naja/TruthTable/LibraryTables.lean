import Naja.TruthTable.Storage

/-! What a library of primitives reads of the truth tables of its designs. -/

namespace Naja.TruthTable.LibraryTables
open Storage

def canonicalizeTruthTableForLookup (t : SNLTruthTable) : Except String SNLTruthTable :=
  let deps := SNLTruthTable.fullDependencies t.size
  if t.isGeneric then SNLTruthTable.ofGeneric t.size t.genericType deps 0 0
  else if t.size ≤ 6 then SNLTruthTable.ofMask t.size (t.bits.getChunks.headD 0) deps
  else SNLTruthTable.ofVector t.size ((List.range t.bits.nbits).map t.bits.bit) deps

/-- The loop over the bit terms that are no inputs, by flat ID. -/
def commonOf (d : Design) : List Nat → Option SNLTruthTable → Except String SNLTruthTable
  | [], common => .ok (common.getD {})
  | flatID :: rest, common => do
      let current ← getTruthTable d flatID
      if !current.isInitialized then return {}
      match common with
      | none => commonOf d rest (some current)
      | some table => if current ≠ table then return {} else commonOf d rest (some table)

def getCommonTruthTable (d : Design) : Except String SNLTruthTable := do
  let count ← getTruthTableCount d
  if count = 0 then return {}
  if count = 1 then getDesignTruthTable d
  else
    let flatIDs := (List.range d.bitTerms.length).filter
      (fun i => (d.bitTerms[i]?).any (fun t => t.direction != .Input))
    commonOf d flatIDs none

/-- The table under which a design is entered, if any. -/
def addDesignTruthTable (d : Design) : Except String (Option SNLTruthTable) := do
  let table ← getCommonTruthTable d
  if table.isInitialized then
    let canonical ← canonicalizeTruthTableForLookup table
    return some canonical
  else return none

end Naja.TruthTable.LibraryTables
