import DeferredLog.CallSite
import DeferredLog.Command.ConsoleDemo
import DeferredLog.Command.RewriteFiles
import DeferredLog.FileTree.Resolve
import DeferredLog.Import.Binding
import DeferredLog.Json.Parser
import DeferredLog.Logger.Session
import DeferredLog.Main
import DeferredLog.Patch
import DeferredLog.Program
import DeferredLog.Proofs.Rewrite.Again
import DeferredLog.Rewrite
import DeferredLog.SourceMap
import DeferredLog.Proofs.Core.Parse
import DeferredLog.Proofs.Import.Lookup
import DeferredLog.Proofs.FileTree.Root
import DeferredLog.Proofs.Rewrite.Inert
import DeferredLog.Proofs.Rewrite.Origins
import DeferredLog.Proofs.SourceMap.Order
import DeferredLog.Proofs.Outline.Recast
import DeferredLog.Proofs.Outline.Visits
import DeferredLog.Proofs.Token.Comment
import DeferredLog.Proofs.Token.Slash
import DeferredLog.Proofs.Program.Edit
import DeferredLog.Proofs.Program.Member
import DeferredLog.Proofs.Import.Recast
import DeferredLog.Proofs.Core.Layout
import DeferredLog.Proofs.Logger.Registration
import DeferredLog.Proofs.Logger.Routes
import DeferredLog.Proofs.Logger.Session
import DeferredLog.Proofs.Program.Bindings
import DeferredLog.Proofs.Outline.Sites
import DeferredLog.Proofs.Program.Numbering
import DeferredLog.Proofs.Program.Operands
import DeferredLog.Proofs.Program.Arrow
import DeferredLog.Proofs.Tree.LineBreak
import DeferredLog.Proofs.Program.LineBreak
import DeferredLog.Proofs.Token.StringLiteral
import DeferredLog.Proofs.Token.Cover
import DeferredLog.Proofs.Tree.Grammar
import DeferredLog.Proofs.Tree.Braces
import DeferredLog.Proofs.Literal
import DeferredLog.Proofs.Program.Nesting
import DeferredLog.Proofs.Outline.Faults
import DeferredLog.Proofs.Program.Faults
import DeferredLog.Proofs.Rewrite.Faults
import DeferredLog.Proofs.Import.Declaration
import DeferredLog.Proofs.Import.Found
import DeferredLog.Proofs.Text.Lines
import DeferredLog.Proofs.Patch.Edits
import DeferredLog.Proofs.SourceMap.Additions
import DeferredLog.Proofs.SourceMap.Sums
import DeferredLog.Proofs.SourceMap.Vlq
import DeferredLog.Proofs.SourceMap.Grammar
import DeferredLog.Proofs.Console.Style
import DeferredLog.Proofs.Path.Normalized
import DeferredLog.Proofs.FileTree.Write
import DeferredLog.Proofs.Command.Output
import DeferredLog.Proofs.Outline.Advance
import DeferredLog.Proofs.Program.ScopeTree
import DeferredLog.Proofs.Program.Deposits
import DeferredLog.Proofs.Outline.Hoisting
