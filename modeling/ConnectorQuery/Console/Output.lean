/-!
# Output of the console

What is written goes to one of two streams: results to the one, complaints and the log to
the other. A step of the console is a value together with what is written on the way to it,
and steps are written one after the other.
-/

namespace ConnectorQuery.Console

/-- What was written to the streams. -/
structure Output where
  out : String := ""
  err : String := ""
  deriving DecidableEq, Repr

namespace Output

/-- One output after the other. -/
def append (a b : Output) : Output :=
  ⟨a.out ++ b.out, a.err ++ b.err⟩

instance : Append Output := ⟨append⟩

/-- One output after the other, for a list of them. -/
def join : List Output → Output
  | [] => {}
  | o :: os => o ++ join os

@[simp] theorem out_append (a b : Output) : (a ++ b).out = a.out ++ b.out := rfl

@[simp] theorem err_append (a b : Output) : (a ++ b).err = a.err ++ b.err := rfl

@[ext] theorem ext {a b : Output} (out : a.out = b.out) (err : a.err = b.err) : a = b := by
  cases a; cases b; simp_all

theorem append_assoc (a b c : Output) : a ++ b ++ c = a ++ (b ++ c) := by
  ext1 <;> simp [String.append_assoc]

@[simp] theorem empty_append (a : Output) : {} ++ a = a := by
  ext1 <;> simp

@[simp] theorem append_empty (a : Output) : a ++ {} = a := by
  ext1 <;> simp

/-- Outputs in a row are joined part by part. -/
theorem join_append (as bs : List Output) : join (as ++ bs) = join as ++ join bs := by
  induction as with
  | nil => simp [join]
  | cons a as ih => simp [join, ih, append_assoc]

end Output

/-- A value, and what is written on the way to it. -/
structure Writing (α : Type) where
  value : α
  output : Output := {}

namespace Writing

instance : Monad Writing where
  pure a := ⟨a, {}⟩
  bind x f := ⟨(f x.value).value, x.output ++ (f x.value).output⟩

variable {α β : Type}

@[simp] theorem value_pure (a : α) : (pure a : Writing α).value = a := rfl

@[simp] theorem output_pure (a : α) : (pure a : Writing α).output = {} := rfl

@[simp] theorem value_bind (x : Writing α) (f : α → Writing β) :
    (x >>= f).value = (f x.value).value := rfl

@[simp] theorem output_bind (x : Writing α) (f : α → Writing β) :
    (x >>= f).output = x.output ++ (f x.value).output := rfl

end Writing

/-- Write a line of results. -/
def println (s : String) : Writing Unit :=
  ⟨(), { out := s ++ "\n" }⟩

/-- Write something to the stream of complaints. -/
def eprint (s : String) : Writing Unit :=
  ⟨(), { err := s }⟩

/-- Write a complaint. -/
def eprintln (s : String) : Writing Unit :=
  eprint (s ++ "\n")

end ConnectorQuery.Console
