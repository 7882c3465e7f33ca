import Localizer.Text.Width

/-!
# Locales

The languages that the game is localized into. A locale fixes the words that stand in the contexts
of dialogue lines, where pictures and voices are found, and whether texts are wrapped.
-/

namespace Localizer

open Text

structure Locale where
  faceBase : Text
  voiceBase : Text
  /-- The word for a line that no character speaks. -/
  narration : Text
  /-- The mark of a line that a character only thinks. -/
  thought : Text
  /-- The word for a line to choose, to be followed by its number. -/
  choice : Text
  /-- The measure by which texts are wrapped, if they are. -/
  measure? : Option (Text → Int)

namespace Locale

def chinese : Locale where
  faceBase := "https://ga3.wbnb.top/face"
  voiceBase := "https://ga3.wbnb.top/advvoice"
  narration := "旁白"
  thought := "【思考】"
  choice := "选项"
  measure? := none

def english : Locale where
  faceBase := "https://ga2.wbnb.top/face"
  voiceBase := "https://ga2.wbnb.top/advvoice"
  narration := "narration"
  thought := "【thoughts】"
  choice := "choice"
  measure? := some displayWidth

end Locale

end Localizer
