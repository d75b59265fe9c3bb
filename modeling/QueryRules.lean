import QueryRules.CommandLine.Directory
import QueryRules.Json.Plans
import QueryRules.Main
import QueryRules.Proofs.ProvedRules
import QueryRules.Proofs.VisitOrder
import QueryRules.Proofs.OutputWidths
import QueryRules.Proofs.ReferencedRows
import QueryRules.Proofs.ForcedBinders
import QueryRules.Proofs.SingleRows
import QueryRules.Proofs.SquashShapes
import QueryRules.Proofs.CapturedVariables
import QueryRules.Proofs.PassTermination
import QueryRules.Proofs.RecordedSteps
import QueryRules.Proofs.LeftJoins
import QueryRules.Proofs.FactorOrder
import QueryRules.Proofs.FlagArrays
import QueryRules.Proofs.ConditionTemplates
import QueryRules.Proofs.ValidSteps
import QueryRules.Proofs.PartitionOrder
import QueryRules.Proofs.ProjectionClosure
import QueryRules.Proofs.TableChecks
import QueryRules.Proofs.NameTables
