import TypeCalculus.Evaluator.Element
import TypeCalculus.Evaluator.Fields
import TypeCalculus.Keys
import TypeCalculus.LogFormat
import TypeCalculus.NameTable
import TypeCalculus.Render
import TypeCalculus.Proofs.Cycles
import TypeCalculus.Proofs.Decision
import TypeCalculus.Proofs.DeepMapping
import TypeCalculus.Proofs.Distribution
import TypeCalculus.Proofs.Grounded
import TypeCalculus.Proofs.Guarding
import TypeCalculus.Proofs.Hygiene
import TypeCalculus.Proofs.Inference
import TypeCalculus.Proofs.IntersectionAlgebra
import TypeCalculus.Proofs.Partition
import TypeCalculus.Proofs.Quiescence
import TypeCalculus.Proofs.UnionAlgebra
import TypeCalculus.Proofs.Bounds
import TypeCalculus.Proofs.Acceptors
import TypeCalculus.Proofs.Crossing
import TypeCalculus.Proofs.Images
import TypeCalculus.Proofs.Composition
import TypeCalculus.Proofs.Variadic
import TypeCalculus.Proofs.PlainRecursion
import TypeCalculus.Proofs.OpenSignatures
import TypeCalculus.Proofs.SignatureTemplates
import TypeCalculus.Proofs.SignatureLaws
import TypeCalculus.Proofs.DeepSolutions
import TypeCalculus.Proofs.DeepComposition
import TypeCalculus.Proofs.Trials
import TypeCalculus.Proofs.Twins
import TypeCalculus.Proofs.MatcherSimulation
import TypeCalculus.Proofs.RaisedLimits
import TypeCalculus.Proofs.KeyNames
import TypeCalculus.Proofs.KeySelection
import TypeCalculus.Proofs.MemberChains
import TypeCalculus.Proofs.CommonKeys
import TypeCalculus.Proofs.TupleElements
import TypeCalculus.Proofs.Spelling
import TypeCalculus.Proofs.Legibility
import TypeCalculus.Proofs.VariableScans
import TypeCalculus.Proofs.GuardHistory
import TypeCalculus.Proofs.Naming
