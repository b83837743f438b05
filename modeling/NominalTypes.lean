import NominalTypes.Document.Number
import NominalTypes.Document.Write
import NominalTypes.Proofs.Assignability
import NominalTypes.Proofs.BinaryNames
import NominalTypes.Proofs.Bodies
import NominalTypes.Proofs.ClosedTypes
import NominalTypes.Proofs.ContainingArguments
import NominalTypes.Proofs.CurrentPackage
import NominalTypes.Proofs.Enclosure
import NominalTypes.Proofs.Enumeration
import NominalTypes.Proofs.ErasedExecutables
import NominalTypes.Proofs.Freshness
import NominalTypes.Proofs.Literals
import NominalTypes.Proofs.NormalForms
import NominalTypes.Proofs.Owners
import NominalTypes.Proofs.Parsing
import NominalTypes.Proofs.PrimitiveBounds
import NominalTypes.Proofs.Queries
import NominalTypes.Proofs.SelfTypes
import NominalTypes.Proofs.Shadowing
import NominalTypes.Proofs.Transitivity
import NominalTypes.Proofs.VariableBounds
