import ContractModel.SortedMap
import ContractModel.Sorting
import ContractModel.Text.Blank
import ContractModel.Json.Printer
import ContractModel.Json.Parser
import ContractModel.Json.Schema
import ContractModel.Error
import ContractModel.Toolchain
import ContractModel.Function.Selector
import ContractModel.Text.Similarity
import ContractModel.Syntax.Node
import ContractModel.Syntax.Index
import ContractModel.Types.Resolution
import ContractModel.Types.Dimensions
import ContractModel.Compilation.Output
import ContractModel.Compilation.Input
import ContractModel.Function.Lookup
import ContractModel.Types.Parameter
import ContractModel.Types.InterfaceType
import ContractModel.Function.Catalog
import ContractModel.Types.Reachable
import ContractModel.Instrument.Copies
import ContractModel.Instrument.Finder
import ContractModel.Text.Utf8
import ContractModel.Link.Directive
import ContractModel.Link.Slot
import ContractModel.Link.Address
import ContractModel.Link.Bytecode
import ContractModel.Instrument.Plan
import ContractModel.Instrument.Imports
import ContractModel.Config
import ContractModel.Build.Run
import ContractModel.CommandLine.Workspace
import ContractModel.Main
import ContractModel.Proofs.Instrument.Splicing
import ContractModel.Proofs.Run
import ContractModel.Proofs.Instrument.Placement
import ContractModel.Proofs.Build.Overloads
import ContractModel.Proofs.Types.Dimensions
import ContractModel.Proofs.Syntax.Inheritance
import ContractModel.Proofs.Types.CanonicalType
import ContractModel.Proofs.Types.Parameter
import ContractModel.Proofs.Instrument.Correspondence
import ContractModel.Proofs.Function.Collection
import ContractModel.Proofs.Function.Completeness
import ContractModel.Proofs.Function.Constructors
import ContractModel.Proofs.Function.Overrides
import ContractModel.Proofs.Function.Selectors
import ContractModel.Proofs.Function.Union
import ContractModel.Proofs.Link.Addresses
import ContractModel.Proofs.Link.Substitution
import ContractModel.Proofs.Build.Closure
import ContractModel.Proofs.Effects
import ContractModel.Proofs.FileTree
import ContractModel.Proofs.Build.Units
import ContractModel.Proofs.Build.Additions
import ContractModel.Proofs.Build.Order
import ContractModel.Proofs.Build.Faults
import ContractModel.Proofs.Build.Instrumented
import ContractModel.Proofs.Build.Trace
import ContractModel.Proofs.Build.Links
import ContractModel.Proofs.Build.Integrity
import ContractModel.Proofs.Build.Configured
import ContractModel.Proofs.Instrument.HiddenPaths
import ContractModel.Proofs.Instrument.HiddenFiles
import ContractModel.Proofs.Build.Blind
import ContractModel.Proofs.Build.FallBack
import ContractModel.Proofs.Instrument.Redirection
import ContractModel.Proofs.Places
import ContractModel.Proofs.Build.Frame
import ContractModel.Proofs.RecentCache
import ContractModel.Proofs.Syntax.Flattening
import ContractModel.Proofs.Syntax.Memory
import ContractModel.Proofs.Types.ArrayChains
import ContractModel.Proofs.Link.BareCode
import ContractModel.Proofs.Build.DeployedCode
import ContractModel.Proofs.Text.Words
import ContractModel.Proofs.Text.Numerals
import ContractModel.Proofs.Compilation.Flags
import ContractModel.Proofs.Compilation.OptimizationFlags
import ContractModel.Proofs.Types.SourceSignature
import ContractModel.Proofs.Function.InterfaceSignatures
import ContractModel.Proofs.Types.Agreement
import ContractModel.Proofs.Function.Agreement
import ContractModel.Proofs.Build.Representatives
import ContractModel.Proofs.Build.Duplicates
import ContractModel.Proofs.Syntax.References
import ContractModel.Proofs.Syntax.Imports
import ContractModel.Proofs.Syntax.BaseClosure
import ContractModel.Proofs.Types.Following
import ContractModel.Proofs.Types.Recursion
import ContractModel.Proofs.Types.Components
import ContractModel.Proofs.Link.AddressWidth
import ContractModel.Proofs.Instrument.Stores
import ContractModel.Proofs.Instrument.Keys
import ContractModel.Proofs.Instrument.CalldataAccess
import ContractModel.Proofs.Instrument.TypeLayouts
import ContractModel.Proofs.Types.InScope
import ContractModel.Proofs.Function.MethodLookup
import ContractModel.Proofs.Link.SlotNumbers
import ContractModel.Proofs.Link.SlotMatches
import ContractModel.Proofs.Build.Destinations
import ContractModel.Proofs.Syntax.Navigation
import ContractModel.Proofs.Instrument.CopyPaths
import ContractModel.Proofs.Build.LinkTargets
import ContractModel.Proofs.Build.ReportPlaces
import ContractModel.Proofs.Types.DimensionGroups
import ContractModel.Proofs.Link.Directives
import ContractModel.Proofs.RecentUse
import ContractModel.Proofs.Build.SavedOutputs
