/-!
# Widths in bytes

Places in a text are counted in bytes of its UTF-8 form. The *width* of a list
of characters is the number of bytes it takes there, and an offset is a
*boundary* of a text when it does not fall inside a character. Offsets past the
end count as the end.

* `width_append`: widths add up;
* `within_isPrefix`: the characters within the first `n` bytes open the text.
-/

namespace ConnectorQuery.Text

/-- The number of bytes that the characters take in UTF-8. -/
def width : List Char → Nat
  | [] => 0
  | c :: cs => c.utf8Size + width cs

@[simp] theorem width_nil : width [] = 0 := rfl

@[simp] theorem width_cons (c : Char) (cs : List Char) :
    width (c :: cs) = c.utf8Size + width cs := rfl

@[simp] theorem width_append (xs ys : List Char) :
    width (xs ++ ys) = width xs + width ys := by
  induction xs with
  | nil => simp
  | cons c cs ih => simp [ih, Nat.add_assoc]

/-- The characters that end within the first `n` bytes. -/
def within : List Char → Nat → List Char
  | [], _ => []
  | c :: cs, n => if c.utf8Size ≤ n then c :: within cs (n - c.utf8Size) else []

theorem within_isPrefix (cs : List Char) (n : Nat) : within cs n <+: cs := by
  induction cs generalizing n with
  | nil => simp [within]
  | cons c cs ih =>
    unfold within
    split
    · exact List.cons_prefix_cons.2 ⟨rfl, ih _⟩
    · exact List.nil_prefix

/-- The offset `n` falls between two characters of the text, at one of its ends
    or past its end. -/
def IsBoundary (cs : List Char) (n : Nat) : Prop :=
  width cs ≤ n ∨ width (within cs n) = n

instance (cs : List Char) (n : Nat) : Decidable (IsBoundary cs n) :=
  inferInstanceAs (Decidable (_ ∨ _))

end ConnectorQuery.Text
