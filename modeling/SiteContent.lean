import SiteContent.FrontMatter
import SiteContent.Json.Printer
import SiteContent.Package
import SiteContent.Schema.Fragment
import SiteContent.View.Page
import SiteContent.Main
import SiteContent.Proofs.Forwarding
import SiteContent.Proofs.Descent
import SiteContent.Proofs.SchemaGraph
import SiteContent.Proofs.Visits
import SiteContent.Proofs.Defects
import SiteContent.Proofs.Building
import SiteContent.Proofs.EndlessDefaults
import SiteContent.Proofs.Conformance
import SiteContent.Proofs.SortedDict
import SiteContent.Proofs.Rebuilding
import SiteContent.Proofs.Idempotence
import SiteContent.Proofs.Termination
import SiteContent.Proofs.Carrying
import SiteContent.Proofs.DataModel
import SiteContent.Proofs.AuthoredContent
import SiteContent.Proofs.DeclaredKeys
import SiteContent.Proofs.Pruning
import SiteContent.Proofs.Policies
import SiteContent.Proofs.Strays
import SiteContent.Proofs.FilePaths
import SiteContent.Proofs.Loading
import SiteContent.Proofs.Locality
import SiteContent.Proofs.Reading
import SiteContent.Proofs.SchemaReading
import SiteContent.Proofs.SchemaExport
import SiteContent.Proofs.Trimming
import SiteContent.Proofs.FieldViews
import SiteContent.Proofs.RecordViews
import SiteContent.Proofs.TypedViews
import SiteContent.Proofs.Embedding
import SiteContent.Proofs.RegistryIndex
import SiteContent.Proofs.Enumerations
import SiteContent.Proofs.OutcomeReading
import SiteContent.Proofs.FileWriting
import SiteContent.Proofs.ExitStatus
import SiteContent.Proofs.PathText
import SiteContent.Proofs.ReportOrder
import SiteContent.Proofs.ReportedPaths
import SiteContent.Proofs.ExtendedSchemas
import SiteContent.Proofs.Composition
import SiteContent.Proofs.RelaxedSchemas
import SiteContent.Proofs.HeaderDivision
import SiteContent.Proofs.Within
import SiteContent.Proofs.ExclusiveCases
import SiteContent.Proofs.Reordering
import SiteContent.Proofs.ReorderedWalks
import SiteContent.Proofs.DeclarationOrder
import SiteContent.Proofs.ReportAccount
import SiteContent.Proofs.PrintedResults
import SiteContent.Proofs.DistinctNames
import SiteContent.Proofs.PlainPatterns
import SiteContent.Proofs.SiteSources
import SiteContent.Proofs.LineEndings
