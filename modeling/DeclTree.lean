import DeclTree.Build
import DeclTree.Header.Emit
import DeclTree.Header.Options
import DeclTree.Host
import DeclTree.Naming
import DeclTree.Proofs.ExactArithmetic
import DeclTree.Proofs.Header.Brackets
import DeclTree.Proofs.Header.CappedEmission
import DeclTree.Proofs.Header.Comments
import DeclTree.Proofs.Header.Completion
import DeclTree.Proofs.Header.ConstantLine
import DeclTree.Proofs.Header.DeviceEmission
import DeclTree.Proofs.Header.Document
import DeclTree.Proofs.Header.FlagMasks
import DeclTree.Proofs.Header.Indentation
import DeclTree.Proofs.Header.LastBatch
import DeclTree.Proofs.Header.SchemaInjective
import DeclTree.Proofs.Header.View
import DeclTree.Proofs.LaterSteps
import DeclTree.Proofs.Naming.Composition
import DeclTree.Proofs.Naming.Words
import DeclTree.Proofs.OperatorLaws
import DeclTree.Proofs.ReferenceValue
import DeclTree.Proofs.References
import DeclTree.Proofs.ScriptedDevice
import DeclTree.Proofs.Signatures
import DeclTree.Proofs.TagTokens
import DeclTree.Queries
import DeclTree.Value

