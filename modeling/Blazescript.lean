import Blazescript.Probing.Proofs.ProbeProofs
import Blazescript.Valmap.Data
import Blazescript.Valmap.FiniteMap
import Blazescript.Valmap.Proofs.DataProofs
import Blazescript.Valmap.Proofs.RefinementProofs
import Blazescript.Arena.Heap
import Blazescript.Arena.Proofs.HeapProofs
import Blazescript.Valmap.Proofs.ValmapProofs
import Blazescript.Environment.Env
import Blazescript.Environment.Proofs.EnvProofs
import Blazescript.Scope.Scope
import Blazescript.Scope.Proofs.ScopeProofs
import Blazescript.Scope.Proofs.TreeProofs
import Blazescript.Eval.Value
import Blazescript.Syntax.DeepCopy
import Blazescript.Tracing.Proofs.RecorderProofs
import Blazescript.Eval.Machine
import Blazescript.Eval.Step
import Blazescript.Eval.Builtins
import Blazescript.Eval.Eval
import Blazescript.Eval.Proofs.TransProofs
import Blazescript.Eval.Proofs.ReleaseProofs
import Blazescript.Eval.Proofs.EvalProofs
import Blazescript.Eval.Proofs.ShapeProofs
import Blazescript.Eval.Entries
import Blazescript.Eval.Proofs.EntriesProofs
import Blazescript.Eval.Lifetime
import Blazescript.Eval.Proofs.LifetimeProofs
import Blazescript.Eval.Proofs.SlotsProofs
import Blazescript.Eval.Proofs.ScopingProofs
import Blazescript.Eval.Bindings
import Blazescript.Eval.Proofs.BindingsProofs
import Blazescript.Eval.Activations
import Blazescript.Eval.Proofs.ActivationsProofs
import Blazescript.Vm.Exec
import Blazescript.Vm.Instr
import Blazescript.Vm.Proofs.ProgramProofs
import Blazescript.Vm.Proofs.InstrProofs
import Blazescript.Vm.Proofs.ReadsProofs
import Blazescript.Vm.Proofs.ExecProofs
import Blazescript.Vm.Proofs.BoundariesProofs
import Blazescript.Vm.Proofs.ImmediatesProofs
import Blazescript.Vm.Proofs.ExitProofs
import Blazescript.Vm.Proofs.CompletionProofs
import Blazescript.Vm.Bounds
import Blazescript.Vm.Proofs.BoundsProofs
import Blazescript.Syntax.Parser
import Blazescript.Syntax.Grammar
import Blazescript.Syntax.Proofs.YieldsProofs
import Blazescript.Syntax.Proofs.SoundnessProofs
import Blazescript.Syntax.Proofs.FuelProofs
import Blazescript.Syntax.Proofs.TerminationProofs
import Blazescript.Syntax.Proofs.SeparatedProofs
import Blazescript.Syntax.Proofs.DeepCopyProofs
import Blazescript.Syntax.Consumes
import Blazescript.Syntax.Proofs.ConsumesProofs
import Blazescript.Syntax.Expr
import Blazescript.Syntax.Proofs.CompletenessProofs
import Blazescript.Syntax.Proofs.PrintProofs
import Blazescript.Syntax.Lexer
import Blazescript.Syntax.Lexemes
import Blazescript.Syntax.Proofs.LexerProofs
import Blazescript.Syntax.Proofs.LexemesProofs
import Blazescript.Syntax.Proofs.LexingProofs
import Blazescript.Codegen.Asm
import Blazescript.Codegen.CompileX8664
import Blazescript.Codegen.GnuAs
import Blazescript.Codegen.Proofs.GnuAsProofs
import Blazescript.Running.Path
import Blazescript.Running.Proofs.PathProofs
import Blazescript.Running.Proofs.PushedProofs
import Blazescript.Codegen.Process
import Blazescript.Codegen.Convention
import Blazescript.Codegen.Proofs.CompileProofs
import Blazescript.Codegen.Proofs.ProcessProofs
import Blazescript.Codegen.Proofs.StatementProofs
import Blazescript.Codegen.Proofs.ConventionProofs
import Blazescript.Codegen.Libblaze
import Blazescript.Codegen.Proofs.MainProofs
import Blazescript.Codegen.Proofs.InterpretedProofs
import Blazescript.Codegen.Proofs.LibblazeProofs
import Blazescript.Codegen.Proofs.SameOutputProofs
import Blazescript.Syntax.Alike
import Blazescript.Syntax.Proofs.AlikeProofs
import Blazescript.Syntax.Proofs.LoopHeaderProofs
import Blazescript.Eval.Operators
import Blazescript.Eval.Proofs.OperatorsProofs
import Blazescript.Eval.Proofs.ArithmeticProofs
import Blazescript.Eval.Proofs.ComparisonProofs
import Blazescript.Eval.Proofs.ConcatProofs
import Blazescript.Eval.Literals
import Blazescript.Eval.Proofs.LiteralsProofs
import Blazescript.Arena.FreeList
import Blazescript.Arena.Proofs.FreeListProofs
import Blazescript.Eval.Proofs.ValAllocProofs
import Blazescript.Vm.Errors
import Blazescript.Vm.Proofs.ErrorsProofs
import Blazescript.Arena.Block
import Blazescript.Arena.Proofs.BlockProofs
import Blazescript.Vm.Builder
import Blazescript.Vm.Proofs.BuilderProofs
import Blazescript.Eval.Copying
import Blazescript.Eval.Proofs.CopyingProofs
import Blazescript.Eval.Flow
import Blazescript.Running.Proofs.KeptProofs
import Blazescript.Eval.Elements
import Blazescript.Eval.Proofs.ElementsProofs
import Blazescript.Vm.Proofs.RawStackProofs
import Blazescript.Codegen.DataLabels
import Blazescript.Codegen.Proofs.DataLabelsProofs
import Blazescript.Map.Map
import Blazescript.Map.Stored
import Blazescript.Map.Proofs.MapProofs
import Blazescript.Map.Proofs.StoredProofs
import Blazescript.Stdio.Machine
import Blazescript.Stdio.StdioLinux
import Blazescript.Stdio.Proofs.MachineProofs
import Blazescript.Stdio.Proofs.StdioLinuxProofs
import Blazescript.Syntax.Positions
import Blazescript.Syntax.Proofs.PositionsProofs
import Blazescript.Syntax.Errmsg
import Blazescript.Syntax.Proofs.ErrmsgProofs
import Blazescript.Syntax.Proofs.PlacesProofs
import Blazescript.Eval.Blocks
import Blazescript.Eval.Proofs.BlocksProofs
import Blazescript.Eval.Loops
import Blazescript.Eval.Proofs.LoopsProofs
import Blazescript.Running.Proofs.RefinesProofs
import Blazescript.Language.Represents
import Blazescript.Language.Proofs.LayersProofs
import Blazescript.Language.Proofs.StepsProofs
import Blazescript.Language.Proofs.NamesProofs
import Blazescript.Language.Proofs.NestingProofs
import Blazescript.Language.Proofs.StatementsProofs
import Blazescript.Language.Proofs.PrintingProofs
import Blazescript.Language.Proofs.ProgramsProofs
import Blazescript.Language.Proofs.SumProofs
import Blazescript.Eval.Filtering
import Blazescript.Eval.Proofs.FilteringProofs
import Blazescript.Language.Proofs.SourceProofs
import Blazescript.Scanning.Fields
import Blazescript.Scanning.Proofs.FieldsProofs
import Blazescript.Vm.Listing
import Blazescript.Vm.Proofs.ListingProofs
import Blazescript.Vm.Proofs.StackMachineProofs
import Blazescript.Vm.Proofs.ReversalProofs
import Blazescript.Eval.Persistence
import Blazescript.Eval.Proofs.PersistenceProofs
