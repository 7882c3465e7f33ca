import Localizer.Main
import Localizer.Proofs.Credits.Line
import Localizer.Proofs.Dialogue.Call
import Localizer.Proofs.Dialogue.Cast
import Localizer.Proofs.Dialogue.Catalogue
import Localizer.Proofs.Dialogue.ControlCode
import Localizer.Proofs.Dialogue.Order
import Localizer.Proofs.Dialogue.Originals
import Localizer.Proofs.Editor.Deletion
import Localizer.Proofs.Editor.Load
import Localizer.Proofs.Editor.Pictures
import Localizer.Proofs.Editor.Savable
import Localizer.Proofs.Font.CodeTable
import Localizer.Proofs.Font.Tile
import Localizer.Proofs.Movie.Stream
import Localizer.Proofs.Opening.Pointers
import Localizer.Proofs.Resource.Key
import Localizer.Proofs.Script.Failure
import Localizer.Proofs.Script.Stream
import Localizer.Proofs.Script.TextArgument
import Localizer.Proofs.Table.Collection
import Localizer.Proofs.Table.WriteBack
import Localizer.Scenario.Programme
