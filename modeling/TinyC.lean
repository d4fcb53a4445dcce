import TinyC.Types
import TinyC.AbiClassify
import TinyC.Ir
import TinyC.RegAlloc
import TinyC.Lib.ByteMemory
import TinyC.Machine
import TinyC.Lib.FloatFormat
import TinyC.Codegen
import TinyC.Token
import TinyC.Slots
import TinyC.OperatorSelection
import TinyC.OperatorValue
import TinyC.CallLowering
import TinyC.CallLocations
import TinyC.Ast
import TinyC.Scope
import TinyC.IrGenState
import TinyC.IrGenExpr
import TinyC.IrGenStmt
import TinyC.IrGenModule
import TinyC.UnitFunctions
import TinyC.TempFlow
import TinyC.TempFlowExpr
import TinyC.TempFlowStmt
import TinyC.TempsWritten
import TinyC.TempNumbers
import TinyC.Lib.Rounding
import TinyC.Lib.Placement
import TinyC.Lib.RecordLayout
import TinyC.FrameLayout
import TinyC.GenFrame
import TinyC.StmtFrame
import TinyC.FuncStart
import TinyC.IrMachine
import TinyC.Structured
import TinyC.ControlFlow
import TinyC.ControlFlowStmt
import TinyC.JumpTargets
import TinyC.ControlFlowCorrect
import TinyC.Lib.JumpFlow
import TinyC.Lib.TwosComplement
import TinyC.Lib.SignedDivision
import TinyC.StackPointer
import TinyC.StructLayout
import TinyC.Lexer
import TinyC.LexerSpans
import TinyC.StringLiterals
import TinyC.StringPool
import TinyC.SilentCode
import TinyC.Decay
import TinyC.BlockObjects
import TinyC.GenRules
import TinyC.StmtRules
import TinyC.Scans
import TinyC.JumpLedger
import TinyC.StmtLedger
import TinyC.FuncLabels
import TinyC.CodegenUnit
import TinyC.Symbols
import TinyC.UnitLabels
import TinyC.CaseTests
import TinyC.PassedOnce
import TinyC.SwitchLowering
import TinyC.SwitchDispatch
import TinyC.TypeTable
import TinyC.ParseTree
import TinyC.ParserState
import TinyC.Parser
import TinyC.SourceText
import TinyC.ParserRules
import TinyC.TypeHistory
import TinyC.Interning
import TinyC.Versions
import TinyC.TagScopes
import TinyC.ParserBound
import TinyC.Sema
import TinyC.Readback
import TinyC.Fallbacks
import TinyC.FallbackRules
import TinyC.Compile
import TinyC.FallbackUnits
import TinyC.IntConstants
import TinyC.CastValue
import TinyC.ArithTypes
import TinyC.TypedefNames
import TinyC.MemoryWrites
import TinyC.StaticTypes
import TinyC.StoreWidth
import TinyC.WordMachine
import TinyC.SlotValues
import TinyC.IntegerObjects
import TinyC.WordRules
import TinyC.BitFields
import TinyC.AssignedValue
import TinyC.ParserRuns
import TinyC.ExprGrammar
import TinyC.PrattParsing
import TinyC.InitializerParsing
import TinyC.SizeofParsing
import TinyC.MemberSearch
import TinyC.MemberRange
import TinyC.AbiLeaves
import TinyC.Lib.Descent
import TinyC.Containment
import TinyC.Lib.Bisection
import TinyC.Keywords
import TinyC.PoolRuns
import TinyC.Lib.BlockCopy
import TinyC.BlockCopies
import TinyC.Lib.BoundedBuffer
import TinyC.TypePrinting
import TinyC.Arena
import TinyC.ArenaRuns
import TinyC.Lib.Interner
import TinyC.Strtab
import TinyC.StrtabRuns
import TinyC.Lib.ScopedMaps
import TinyC.ScopeTables
import TinyC.TypeCompat
import TinyC.SemaRules
import TinyC.ParserContext
import TinyC.MisplacedStatements
import TinyC.TraversalContext
import TinyC.NumericConstants
import TinyC.Lib.Simulation
import TinyC.AsmRuns
import TinyC.WordIr
import TinyC.WordCode
import TinyC.CodegenCorrect
import TinyC.ExprMeaning
import TinyC.ExprWords
import TinyC.Lib.PartialRuns
import TinyC.Lowering
import TinyC.LoweredOps
import TinyC.ExprLowering
import TinyC.RunRefinement
import TinyC.BodyLowering
import TinyC.FunctionEntry
import TinyC.FunctionHead
import TinyC.FunctionCorrect
import TinyC.Lib.RegionRuns
import TinyC.ExprRuns
import TinyC.Designation
import TinyC.PlacedRuns
import TinyC.DesignatedPlaces
import TinyC.BoundNames
import TinyC.ArrayDecay
import TinyC.AssignedPlace
import TinyC.FreshWrites
import TinyC.Lib.FrameStack
import TinyC.ProgramRuns
import TinyC.BodyMarks
import TinyC.IdentifierNames
import TinyC.ParsedUnits
import TinyC.CheckedBodies
import TinyC.AcceptedUnits
