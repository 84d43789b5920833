import Lineage.Main
import Lineage.Proofs.Command.Outcome
import Lineage.Proofs.Graph.Dangling
import Lineage.Proofs.Graph.Discovery
import Lineage.Proofs.Java.DocComment
import Lineage.Proofs.Java.Member.Keyword
import Lineage.Proofs.Java.Order
import Lineage.Proofs.Java.Printed.RoundTrip
import Lineage.Proofs.Java.Respacing
import Lineage.Proofs.Page.ScriptEnd
import Lineage.Proofs.Settings.Tolerance
import Lineage.Proofs.Project.SourceName
import Lineage.Proofs.Java.Lines
import Lineage.Proofs.Graph.YamlExport
import Lineage.Proofs.Java.Balance
import Lineage.Proofs.Graph.StackDiscipline
