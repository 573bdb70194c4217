/-!
# ASCII letter case

Keywords, the members of a vocabulary and some names are compared without
regard to the case of the letters `A` to `Z`. No other letter is folded, so `É`
and `é` stay different, as do `K` and the Kelvin sign.
-/

namespace ConnectorQuery.Text

/-- The text with the letters `A` to `Z` in lower case. -/
def foldCase (s : String) : String :=
  String.ofList (s.toList.map Char.toLower)

/-- The texts differ at most in the case of ASCII letters. -/
def eqIgnoringCase (s t : String) : Bool :=
  foldCase s == foldCase t

theorem eqIgnoringCase_iff {s t : String} :
    eqIgnoringCase s t = true ↔ foldCase s = foldCase t :=
  beq_iff_eq

theorem eqIgnoringCase_refl (s : String) : eqIgnoringCase s s = true :=
  eqIgnoringCase_iff.2 rfl

theorem eqIgnoringCase_comm (s t : String) : eqIgnoringCase s t = eqIgnoringCase t s :=
  Bool.beq_comm

end ConnectorQuery.Text
