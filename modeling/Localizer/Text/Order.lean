import Localizer.Text.Basic

/-!
# Order

Texts are ordered like the words of a dictionary, their characters by code point.
-/

namespace Localizer.Text

/-- Whether a list comes before another or is the same, in the order of a dictionary whose letters
are ordered by `le`. -/
def dictionaryLe {α : Type} [DecidableEq α] (le : α → α → Bool) : List α → List α → Bool
  | [], _ => true
  | _ :: _, [] => false
  | a :: as, b :: bs => if a = b then dictionaryLe le as bs else le a b

def le (s t : Text) : Bool := dictionaryLe (fun a b => decide (a.toNat ≤ b.toNat)) s t

end Localizer.Text
