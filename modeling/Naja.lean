import Naja.TruthTable.BitDependencies
import Naja.TruthTable.SNLTruthTable
import Naja.Primitives.Term
import Naja.Primitives.NLDB0
import Naja.Primitives.PinRoles
import Naja.Primitives.BuiltinTables
import Naja.TruthTable.Storage
import Naja.TruthTable.StorageRoundTrip
import Naja.TruthTable.StorageExact
import Naja.InstTerms.Alignment
import Naja.InstTerms.Remap
import Naja.InstTerms.Steps
import Naja.InstTerms.Runs
import Naja.ConstantPropagation.Analysis
import Naja.ConstantPropagation.Termination
import Naja.TruthTable.ReductionSound
import Naja.ConstantPropagation.Soundness
import Naja.TruthTable.Reduction
import Naja.Worklist.Rounds
import Naja.ConstantPropagation.Netlist
import Naja.Hierarchy.Design
import Naja.Hierarchy.Clone
import Naja.Hierarchy.Isolation
import Naja.Vhdl.Schedule
import Naja.Vhdl.ScheduleSound
import Naja.Arena.Slots
import Naja.TGraph.Graph
import Naja.TGraph.Storage
import Naja.TGraph.ClockPropagator
import Naja.TGraph.LoopBreaker
import Naja.TGraph.Forward
import Naja.TGraph.Backward
import Naja.TGraph.Propagation
import Naja.Netlist.Objects
import Naja.Netlist.Operations
import Naja.Netlist.Sound
import Naja.Netlist.Creation
import Naja.Netlist.Connection
import Naja.Netlist.Removal
import Naja.Netlist.Clone
import Naja.Netlist.CloneSound
import Naja.Netlist.Runs
import Naja.Netlist.CloneIsomorphism
import Naja.TruthTable.LibraryTables
import Naja.CapnP.Message
import Naja.CapnP.Load
import Naja.CapnP.WellFormed
import Naja.CapnP.Interface
import Naja.CapnP.Implementation
import Naja.CapnP.RoundTrip
import Naja.Vhdl.CheckExpression
import Naja.Vhdl.Shapes
import Naja.Vhdl.CheckSound
import Naja.Vhdl.ExpressionSound
import Naja.Vhdl.Analyzer
import Naja.Vhdl.AnalyzerSound
import Naja.Restriction.Fill
import Naja.TruthTable.Cofactor
import Naja.TruthTable.WordTables
import Naja.Liberty.BooleanTree
import Naja.Liberty.ParseExact
import Naja.Liberty.FunctionTables
import Naja.Verilog.Numbers
import Naja.Verilog.NumbersAgree
import Naja.Verilog.Naming
import Naja.Verilog.Expressions
import Naja.Verilog.Connections
import Naja.Verilog.Assigns
import Naja.Verilog.AssignGroups
import Naja.Verilog.AssignsExact
import Naja.GateReduction.Lookup
import Naja.GateReduction.Replace
import Naja.GateReduction.ReplaceExact
import Naja.Universe.NLID
import Naja.Universe.Objects
import Naja.Universe.Operations
import Naja.Universe.Sound
import Naja.Universe.Identity
import Naja.Primitives.Families
import Naja.Primitives.GetOrCreate
import Naja.Primitives.Names
import Naja.Primitives.ReadBack
import Naja.Primitives.Canonical
import Naja.Primitives.MemoryInit
import Naja.Primitives.Roms
import Naja.TGraph.Cuts
import Naja.Verilog.RangeIdentifiers
import Naja.Placement.Transform
import Naja.Vhdl.GenericMaps
import Naja.Vhdl.StaticIntegers
import Naja.Vhdl.BitStrings
import Naja.Vhdl.Expressions
import Naja.Vhdl.ExpressionGrammar
import Naja.Vhdl.ExpressionRoundTrip
import Naja.Modeling.CachesFresh
import Naja.Metrics.LogicLevel
import Naja.Metrics.LogicLevelSearch
import Naja.Metrics.LogicLevelExact
import Naja.Worklist.Search
import Naja.Metrics.LogicCone
import Naja.Metrics.LogicConeData
import Naja.Metrics.LogicConeExtract
import Naja.Metrics.LogicConeBus
import Naja.Metrics.LogicConeExact
import Naja.GateReduction.ConstantPositions
import Naja.Netlist.MergeAssigns
import Naja.Universe.Occurrences
import Naja.Netlist.MergeAssignsExact
import Naja.Netlist.Resize
import Naja.Netlist.ErrorStates
import Naja.Netlist.BitPairs
import Naja.Universe.BusResize
import Naja.GateReduction.Influence
import Naja.Dnl.Orders
import Naja.Unfolding.Preorder
import Naja.Dnl.Terminals
import Naja.Dnl.Numbering
import Naja.Dnl.Invariant
import Naja.Dnl.Loop
import Naja.Dnl.Intervals
import Naja.Dnl.Paths
import Naja.Dnl.Encoding
import Naja.Vhdl.Lexer
import Naja.Vhdl.LexerTokens
import Naja.Vhdl.LexerElements
import Naja.Vhdl.LexerRuns
import Naja.Vhdl.LexerLossless
import Naja.Collections.Collection
import Naja.Collections.Lists
import Naja.Collections.Iteration
import Naja.Collections.Combinators
import Naja.Collections.Flattening
import Naja.Collections.TreeLeaves
import Naja.Collections.ListSemantics
import Naja.MuxMerging.Design
import Naja.MuxMerging.Merge
import Naja.MuxMerging.Compatible
import Naja.MuxMerging.Values
import Naja.MuxMerging.Preserved
import Naja.MuxMerging.Pass
import Naja.TruthTable.VectorTables
import Naja.TruthTable.BitEncodings
import Naja.TruthTable.TableOrder
import Naja.TruthTable.DependencyQueries
import Naja.Modeling.ParameterLiterals
import Naja.Hierarchy.Levels
import Naja.Hierarchy.InstanceCounts
import Naja.Dnl.Nets
import Naja.Dnl.Isos
import Naja.Dnl.Pins
import Naja.Dnl.Traversal
import Naja.Dnl.Treated
import Naja.Dnl.Rounds
import Naja.Dnl.Drivers
import Naja.Dnl.Partition
import Naja.Dnl.FlatIsos
import Naja.Optimization.LoadlessLogic
