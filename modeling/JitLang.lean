import JitLang.Foundations.Except
import JitLang.Foundations.Lists
import JitLang.Foundations.Systems
import JitLang.Foundations.Families
import JitLang.Foundations.Fairness
import JitLang.Foundations.Loops
import JitLang.Graph.Walks
import JitLang.Graph.DepthFirst
import JitLang.Graph.RecursiveSearch
import JitLang.Numbers.Double
import JitLang.Numbers.Division
import JitLang.Ir.Function
import JitLang.Ir.Validity
import JitLang.Ir.Checker
import JitLang.Ir.Renaming
import JitLang.Ir.Eval
import JitLang.Ir.Logic
import JitLang.Ir.StraightLine
import JitLang.Cranelift.Function
import JitLang.Cranelift.Builder
import JitLang.Cranelift.Typing
import JitLang.Cranelift.Ssa
import JitLang.Cranelift.Machine
import JitLang.Cranelift.Soundness
import JitLang.Cranelift.StraightLine
import JitLang.Cranelift.Timing
import JitLang.Translate.Traversal
import JitLang.Translate.Translate
import JitLang.Translate.TraversalCorrect
import JitLang.Translate.TraversalRuns
import JitLang.Translate.Lowering
import JitLang.Translate.Encoding
import JitLang.Translate.Loops
import JitLang.Translate.Emission
import JitLang.Translate.Translated
import JitLang.Translate.EmissionRuns
import JitLang.Translate.Shape
import JitLang.Translate.WellTyped
import JitLang.Translate.Safety
import JitLang.Translate.Booleans
import JitLang.Translate.Renaming
import JitLang.Translate.Simulation
import JitLang.Translate.TypeSafety
import JitLang.Translate.Interpreter
import JitLang.Translate.Division
import JitLang.Translate.Cost
import JitLang.Programs.ControlFlow
import JitLang.Programs.Digits
import JitLang.Programs.StraightLine
import JitLang.Programs.Generated
import JitLang.Host.Space
import JitLang.Host.Ownership
import JitLang.Engine.Error
import JitLang.Engine.Crates
import JitLang.Engine.Compile
import JitLang.Engine.Stages
import JitLang.Engine.Abi
import JitLang.Engine.Reference
import JitLang.Engine.Process
import JitLang.Engine.Outcome
import JitLang.Engine.Guarantees
import JitLang.Engine.Oracle
import JitLang.Engine.Lifecycle
import JitLang.Engine.Progress
import JitLang.Engine.Verified
