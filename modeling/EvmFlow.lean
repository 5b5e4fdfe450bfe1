import EvmFlow.Catalogue.Document
import EvmFlow.Machine
import EvmFlow.Main
import EvmFlow.Proofs.Alignment
import EvmFlow.Proofs.CodeText
import EvmFlow.Proofs.DeadBytes
import EvmFlow.Proofs.EntryCodec
import EvmFlow.Proofs.EntryDepths
import EvmFlow.Proofs.ExitCode
import EvmFlow.Proofs.Extension
import EvmFlow.Proofs.GeneratedPrograms
import EvmFlow.Proofs.JumpDestinations
import EvmFlow.Proofs.JumpFree
import EvmFlow.Proofs.Linearity
import EvmFlow.Proofs.Overflow
import EvmFlow.Proofs.PassedOver
import EvmFlow.Proofs.Precedence
import EvmFlow.Proofs.Readings
import EvmFlow.Proofs.StrictEnd
import EvmFlow.Proofs.ViolationLines
import EvmFlow.Proofs.WriteOnce
import EvmFlow.Proofs.Abstraction
import EvmFlow.Proofs.ShadowOperations
import EvmFlow.Proofs.ShadowHeights
import EvmFlow.Proofs.ArrayStack
