import Localizer.Credits.Tool
import Localizer.Dialogue.WriteBack
import Localizer.Font.Tool
import Localizer.Movie.Tool
import Localizer.Opening.Injection
import Localizer.Resource.Tool
import Localizer.Script.Listing
import Localizer.Table.Tool

/-!
# The commands

Each tool is a command with arguments of its own. A command is a job that ends with an exit code.
-/

namespace Localizer

open Text

inductive Command where
  | script
  | dialogue (locale : Locale)
  | table
  | opening
  | credits
  | resource
  | corpus
  | font
  | movie

namespace Command

def named : List (Text × Command) :=
  [("script", script), ("dialogue", dialogue .chinese), ("dialogue-en", dialogue .english), ("table", table),
    ("opening", opening), ("credits", credits), ("resource", resource), ("corpus", corpus), ("font", font),
    ("movie", movie)]

def ofName? (name : Text) : Option Command := named.lookup name

/-- The work of a command. Characters are drawn with the face, if there is one. -/
def run (face? : Option Font.Face) (args : List Text) : Command → Job Nat
  | script => Script.run args
  | dialogue l => Dialogue.run l args
  | table => Table.run args
  | opening => Opening.run args
  | credits => Credits.run args
  | resource => Resource.run args
  | corpus => Font.runCorpus args
  | font => Font.run face?
  | movie => Movie.run args

end Command

end Localizer
