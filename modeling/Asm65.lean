import Asm65.Address.Arithmetic
import Asm65.Address.Basic
import Asm65.Address.Codec
import Asm65.Assembly.Branch
import Asm65.Assembly.Directive
import Asm65.Assembly.Emit
import Asm65.Assembly.Instruction
import Asm65.Assembly.Run
import Asm65.Assembly.State
import Asm65.Assembly.Statement
import Asm65.Assembly.Structured
import Asm65.Binary
import Asm65.Block
import Asm65.Command.Arguments
import Asm65.Command.Assemble
import Asm65.Command.Bundle
import Asm65.Command.Job
import Asm65.Command.Link
import Asm65.Command.Tool
import Asm65.Command.Value
import Asm65.Cpu.Mnemonic
import Asm65.Cpu.Opcode
import Asm65.Diagnostics
import Asm65.Disk
import Asm65.Error
import Asm65.Expression.Basic
import Asm65.IntelHex
import Asm65.Library.Basic
import Asm65.Library.Codec
import Asm65.Link.Basic
import Asm65.Link.Output
import Asm65.Link.Pull
import Asm65.Listing
import Asm65.Main
import Asm65.Object.Basic
import Asm65.Object.Codec
import Asm65.Path
import Asm65.Position
import Asm65.Proofs.Action
import Asm65.Proofs.AddressCodec
import Asm65.Proofs.AppliedUses
import Asm65.Proofs.BranchLog
import Asm65.Proofs.BranchOffset
import Asm65.Proofs.Calculus
import Asm65.Proofs.DirectLink
import Asm65.Proofs.DraftedBlock
import Asm65.Proofs.DraftedStatement
import Asm65.Proofs.Emission
import Asm65.Proofs.ErrorRecovery
import Asm65.Proofs.Evaluation
import Asm65.Proofs.ExpressionTree
import Asm65.Proofs.Footprint
import Asm65.Proofs.ForwardReference
import Asm65.Proofs.Grammar
import Asm65.Proofs.Growth
import Asm65.Proofs.HexReading
import Asm65.Proofs.Inclusion
import Asm65.Proofs.InstructionForm
import Asm65.Proofs.Interface
import Asm65.Proofs.Interning
import Asm65.Proofs.Isolation
import Asm65.Proofs.LabelAccount
import Asm65.Proofs.LabelDiscipline
import Asm65.Proofs.LastNames
import Asm65.Proofs.LibraryCodec
import Asm65.Proofs.LibraryPull
import Asm65.Proofs.LineReading
import Asm65.Proofs.LineStarts
import Asm65.Proofs.LinkReport
import Asm65.Proofs.LinkSuccess
import Asm65.Proofs.LinkedImage
import Asm65.Proofs.ListedBytes
import Asm65.Proofs.LoadImage
import Asm65.Proofs.LoadOrder
import Asm65.Proofs.Loading
import Asm65.Proofs.Lockstep
import Asm65.Proofs.LoopTermination
import Asm65.Proofs.Naming
import Asm65.Proofs.NextPass
import Asm65.Proofs.NumberedNames
import Asm65.Proofs.ObjectCodec
import Asm65.Proofs.ObjectLimits
import Asm65.Proofs.OrderedMap
import Asm65.Proofs.Overwrite
import Asm65.Proofs.Pass
import Asm65.Proofs.PassTermination
import Asm65.Proofs.PlainStatement
import Asm65.Proofs.Positions
import Asm65.Proofs.PrintedTokens
import Asm65.Proofs.Reading
import Asm65.Proofs.ReadingParts
import Asm65.Proofs.Recording
import Asm65.Proofs.Relaxation
import Asm65.Proofs.Relocation
import Asm65.Proofs.RelocationTable
import Asm65.Proofs.RepeatedBlock
import Asm65.Proofs.RepeatedPass
import Asm65.Proofs.RepeatedStatement
import Asm65.Proofs.Resolution
import Asm65.Proofs.Result
import Asm65.Proofs.RunNames
import Asm65.Proofs.SameSource
import Asm65.Proofs.Session
import Asm65.Proofs.ShrinkingCode
import Asm65.Proofs.SourceLines
import Asm65.Proofs.SourceRows
import Asm65.Proofs.SourceText
import Asm65.Proofs.StatementParts
import Asm65.Proofs.StatementReading
import Asm65.Proofs.StructuredBlock
import Asm65.Proofs.StructuredStatement
import Asm65.Proofs.SymbolTable
import Asm65.Proofs.TokenMoves
import Asm65.Proofs.TokenSupply
import Asm65.Proofs.Trace
import Asm65.Proofs.Unfolding
import Asm65.Proofs.UnknownValue
import Asm65.Proofs.UseTable
import Asm65.Proofs.ZeroPageOperand
import Asm65.Segment
import Asm65.Source
import Asm65.Space
import Asm65.Symbol.Basic
import Asm65.Target
import Asm65.Text.Blank
import Asm65.Text.Column
import Asm65.Text.Numeral
import Asm65.Token.Basic
import Asm65.Token.Scan
import Asm65.Token.Stream
