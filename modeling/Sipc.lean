import Sipc.Frontend.AST
import Sipc.Frontend.Traversal
import Sipc.Library.PreOrder
import Sipc.Frontend.SyntaxTree
import Sipc.Semantic.SymbolTable
import Sipc.Library.OrderedMap
import Sipc.Library.RegularTree
import Sipc.Library.UnionForest
import Sipc.Library.Unification
import Sipc.Semantic.Types.TipType
import Sipc.Semantic.Types.UnionFind
import Sipc.Semantic.Types.Unifier
import Sipc.Semantic.Types.UnifierCorrectness
import Sipc.Semantic.Types.UnifierTermination
import Sipc.Library.SetConstraints
import Sipc.Semantic.Cfa.CubicSolver
import Sipc.Semantic.Cfa.CFAnalyzer
import Sipc.Semantic.Cfa.CallGraphBuilder
import Sipc.Semantic.Cfa.CubicSolverHeap
import Sipc.Semantic.Cfa.CubicSolverCorrectness
import Sipc.Library.BreadthFirst
import Sipc.Library.CallCycles
import Sipc.Semantic.Cfa.CallGraph
import Sipc.Semantic.Types.TopoSort
import Sipc.Library.Machine
import Sipc.Codegen.IR
import Sipc.Codegen.CodeGenFunctions
import Sipc.Codegen.ScalarSemantics
import Sipc.Codegen.EmittedCode
import Sipc.Codegen.CodeGenCorrectness
import Sipc.Codegen.FunctionCorrectness
import Sipc.Semantic.Weeding.CheckAssignable
import Sipc.Semantic.Types.TypeConstraintVisitor
import Sipc.Semantic.Cfa.CubicSolverInvariant
import Sipc.Semantic.Cfa.FindPath
import Sipc.Library.Fuel
import Sipc.Semantic.Cfa.CubicSolverCalls
import Sipc.Semantic.Cfa.CubicSolverFunctions
import Sipc.Semantic.Cfa.CubicSolverTermination
import Sipc.Semantic.Cfa.CubicSolverLoops
import Sipc.Library.Execution
import Sipc.Evaluation.Interpreter
import Sipc.Evaluation.CallSoundness
import Sipc.Evaluation.CellRules
import Sipc.Evaluation.ValueTypes
import Sipc.Evaluation.TypeSoundness
import Sipc.Semantic.Types.UnionFindPointers
import Sipc.Codegen.Module
import Sipc.Codegen.ModuleCodegen
import Sipc.Codegen.NameResolution
import Sipc.Codegen.LValues
import Sipc.Semantic.Types.Inferred
import Sipc.Semantic.Types.PolyInference
import Sipc.Semantic.Types.TypeInference
import Sipc.Codegen.LValuesAgree
import Sipc.Codegen.Flags
import Sipc.Codegen.LValueFlag
import Sipc.Codegen.AllocFlag
import Sipc.Frontend.ASTBuilderCorrectness
import Sipc.Frontend.PrettyPrinter
import Sipc.Frontend.PrettyPrinterStack
import Sipc.Codegen.NumberLiterals
import Sipc.Frontend.Token
import Sipc.Frontend.ParseTree
import Sipc.Frontend.Shape
import Sipc.Frontend.ASTBuilder
import Sipc.Frontend.Lexer
import Sipc.Frontend.ExprParser
import Sipc.Frontend.ExprParserCorrectness
import Sipc.Frontend.ExprCompleteness
import Sipc.Frontend.ExprParserFuel
import Sipc.Library.Choices
import Sipc.Frontend.StatementParser
import Sipc.Frontend.Groups
import Sipc.Frontend.StandardParentheses
import Sipc.Frontend.Levels
import Sipc.Frontend.CPrecedence
import Sipc.Frontend.ExprRoundTrip
import Sipc.Frontend.ASTVisualizer
import Sipc.Frontend.Iterators
import Sipc.Semantic.Types.Substituter
import Sipc.Semantic.Types.TypeConstraintUnifyVisitor
import Sipc.Semantic.Types.CloseOrder
import Sipc.Semantic.Types.TypeVars
import Sipc.Library.PairedRuns
import Sipc.Library.SharedCells
import Sipc.Codegen.Renumbering
import Sipc.Codegen.Declarations
import Sipc.Codegen.TwoCompilations
import Sipc.Codegen.SameCode
import Sipc.Codegen.SameProgram
import Sipc.Codegen.FunctionNames
import Sipc.Codegen.Compilations
import Sipc.Library.Brackets
import Sipc.Frontend.FrontEnd
import Sipc.Frontend.StatementParserCorrectness
import Sipc.Frontend.FunctionParserCorrectness
import Sipc.Frontend.PrettyPrinterText
import Sipc.Frontend.Outline
import Sipc.Frontend.StatementRoundTrip
import Sipc.Frontend.ProgramRoundTrip
import Sipc.Library.StructuredCode
import Sipc.Codegen.SsaControl
import Sipc.Codegen.SsaStatements
import Sipc.Codegen.SsaFunctions
import Sipc.Codegen.Appending
import Sipc.Codegen.RegisterUse
import Sipc.Codegen.GeneratedPrograms
import Sipc.Codegen.StaysInCode
