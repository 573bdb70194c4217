import ConnectorQuery.Proofs.Batch.Quoting
import ConnectorQuery.Proofs.Token.Alike

/-!
# Spacing tokens

The tokens of a text can be written again, one behind the other, with at most one
space between two of them (`Token.written`). Where there was a gap there has to be a
space, since two words would become one without it; where there was none, a space
may be left out or not. Scanned again the tokens are the same, and there is a gap
between two of them just where a space was written (`Token.body_written`).

* `tokenize_respaced`: the tokens of a text, with a space between any two of them, or
  with one for each gap;
* `Token.respace_respace`: the latter is a normal form of the text.
-/

namespace ConnectorQuery

namespace Token

/-! ## Writing tokens -/

/-- There is a gap between the tokens. -/
def gapBetween (t u : Token) : Bool :=
  !u.startsAt t.span.stop

/-- The answers for each token and the next one. -/
def between (f : Token → Token → Bool) (ts : List Token) : List Bool :=
  List.zipWith f ts ts.tail

/-- What the token says, wherever it stands: its kind, its text and its value. -/
def content (t : Token) : TokenKind × String × String :=
  (t.kind, t.text, t.value)

/-- A space, or nothing. -/
def spaceIf (b : Bool) : List Char :=
  if b then [' '] else []

/-- The texts of the tokens one behind the other, with a space between two of them
    where `space` tells so. -/
def written (space : Token → Token → Bool) : List Token → List Char
  | [] => []
  | [t] => t.text.toList
  | t :: u :: ts => t.text.toList ++ (spaceIf (space t u) ++ written space (u :: ts))

/-- The text with one space for each gap between two of its tokens, and no gap at its
    ends. -/
def respace (text : String) : String :=
  .ofList (written gapBetween (body text))

/-- The token, where it begins at `n`. -/
def movedTo (t : Token) (n : Nat) : Token :=
  { t with span := ⟨n, n + Text.width t.text.toList⟩ }

/-- The tokens in the text in which they are written, from the place `n` on. -/
def placed (space : Token → Token → Bool) (n : Nat) : List Token → List Token
  | [] => []
  | [t] => [t.movedTo n]
  | t :: u :: ts => t.movedTo n ::
      placed space ((t.movedTo n).span.stop + Text.width (spaceIf (space t u))) (u :: ts)

section

variable (space : Token → Token → Bool)

theorem exists_written_cons (t : Token) (ts : List Token) :
    ∃ more, written space (t :: ts) = t.text.toList ++ more := by
  rcases ts with - | ⟨u, us⟩
  · exact ⟨[], (List.append_nil _).symm⟩
  · exact ⟨_, rfl⟩

/-- Tokens say the same wherever they are written. -/
theorem map_content_placed (n : Nat) (ts : List Token) :
    (placed space n ts).map content = ts.map content := by
  induction ts generalizing n with
  | nil => rfl
  | cons t ts ih =>
    rcases ts with - | ⟨u, us⟩
    · rfl
    · exact congrArg (t.content :: ·) (ih _)

theorem gapBetween_movedTo (t u : Token) (n : Nat) (b : Bool) :
    gapBetween (t.movedTo n)
      (u.movedTo ((t.movedTo n).span.stop + Text.width (spaceIf b))) = b := by
  have wide : ' '.utf8Size = 1 := rfl
  cases b <;> simp [gapBetween, startsAt, movedTo, spaceIf, wide]

/-- A token is placed in front of others, with a gap to the first of them if a space
    is written there. -/
theorem exists_placed_cons_cons (n : Nat) (t u : Token) (us : List Token) : ∃ m vs,
    placed space m (u :: us) = u.movedTo m :: vs ∧
      placed space n (t :: u :: us) = t.movedTo n :: u.movedTo m :: vs ∧
      gapBetween (t.movedTo n) (u.movedTo m) = space t u := by
  have gap := gapBetween_movedTo t u n (space t u)
  rcases us with - | ⟨v, us⟩
  · exact ⟨_, [], rfl, rfl, gap⟩
  · exact ⟨_, _, rfl, rfl, gap⟩

/-- There are gaps where spaces are written. -/
theorem between_placed (n : Nat) (ts : List Token) :
    between gapBetween (placed space n ts) = between space ts := by
  induction ts generalizing n with
  | nil => rfl
  | cons t ts ih =>
    rcases ts with - | ⟨u, us⟩
    · rfl
    · obtain ⟨m, vs, hrest, hwhole, gap⟩ := exists_placed_cons_cons space n t u us
      have rest := ih m
      rw [hrest] at rest
      rw [hwhole]
      exact congrArg₂ List.cons gap rest

end

/-! ## Scanning them again -/

/-- A space is passed over. -/
theorem scan_spaceIf (b : Bool) (n : Nat) (cs : List Char) :
    scan n (spaceIf b ++ cs) = scan (n + Text.width (spaceIf b)) cs := by
  cases b with
  | false => rfl
  | true => exact scan_cons_of_gap rfl n cs

/-- The first token opens the text if there is nothing in front of it. -/
theorem head_of_scan {n : Nat} {cs : List Char} {u : Token} {us : List Token} :
    scan n cs = u :: us → ∃ c tail, u.text.toList = c :: tail ∧
      (u.span.start = n → cs.head? = some c) := by
  fun_induction scan n cs with
  | case1 n => exact fun h => absurd h.symm (List.cons_ne_nil u us)
  | case2 n c cs gap ih =>
    intro h
    obtain ⟨d, tail, hd, -⟩ := ih h
    refine ⟨d, tail, hd, fun start => ?_⟩
    -- the token stands behind the gap
    have behind := le_start_of_mem_head?_scan (n + c.utf8Size) cs u (by rw [h]; rfl)
    have wide := c.utf8Size_pos
    omega
  | case3 n c cs notGap lexeme stop ih =>
    intro h
    obtain ⟨rfl, -⟩ := List.cons.inj h
    obtain ⟨d, tail, hd⟩ := List.exists_cons_of_ne_nil (Lexeme.text_ne_nil c cs)
    have whole := Lexeme.text_append_rest c cs
    rw [hd] at whole
    obtain ⟨rfl, -⟩ := List.cons.inj whole
    exact ⟨d, tail, by rw [String.toList_ofList]; exact hd, fun _ => rfl⟩

variable {space : Token → Token → Bool}

/-- A word does not go on with the token that is written behind it. -/
theorem endsWord_written {t u : Token} {us : List Token} {cs : List Char}
    (spaced : gapBetween t u = true → space t u = true) (h : scan t.span.stop cs = u :: us)
    (hcs : EndsWord cs) : EndsWord (spaceIf (space t u) ++ written space (u :: us)) := by
  intro d hd
  cases hs : space t u with
  | true =>
    rw [hs] at hd
    obtain rfl : ' ' = d := Option.some.inj hd
    rfl
  | false =>
    -- there was no gap, so the word ended here before
    have noGap : gapBetween t u = false := Bool.eq_false_iff.2 fun gap =>
      Bool.false_ne_true (hs.symm.trans (spaced gap))
    have start : u.span.start = t.span.stop := by simpa [gapBetween, startsAt] using noGap
    obtain ⟨c, tail, htext, opens⟩ := head_of_scan h
    obtain ⟨more, hmore⟩ := exists_written_cons space u us
    rw [hs, hmore, htext] at hd
    obtain rfl : c = d := Option.some.inj hd
    exact hcs c (opens start)

/-- Written with a space for each gap at least, the tokens of a text are scanned
    again. -/
theorem scan_written (spaced : ∀ t u, gapBetween t u = true → space t u = true) (m n : Nat)
    (cs : List Char) : scan m (written space (scan n cs)) = placed space m (scan n cs) := by
  fun_induction scan n cs generalizing m with
  | case1 n => exact scan.eq_1 m
  | case2 n c cs gap ih => exact ih m
  | case3 n c cs notGap lexeme stop ih =>
    have notGap : isGap c = false := Bool.eq_false_iff.2 notGap
    have opening : Lexeme.Opening c cs lexeme := Lexeme.opening_first notGap
    have moved : (ofLexeme n lexeme).movedTo m = ofLexeme m lexeme := by
      rw [movedTo, ofLexeme, String.toList_ofList, ofLexeme]
    change scan m (written space (ofLexeme n lexeme :: scan stop lexeme.rest)) =
      placed space m (ofLexeme n lexeme :: scan stop lexeme.rest)
    rcases hts : scan stop lexeme.rest with - | ⟨u, us⟩
    · -- the last token
      have alone := scan_text_append notGap (List.nil_prefix : [] <+: lexeme.rest) m
      rw [List.append_nil, scan.eq_1] at alone
      rw [written, placed, moved, ofLexeme, String.toList_ofList, alone]
    · -- a quotation mark that is left open would have taken the tokens behind it
      have closed : lexeme.kind ≠ .unrecognised := by
        intro isOpen
        rw [opening.rest_eq_nil isOpen, scan.eq_1] at hts
        cases hts
      have ends : isWordChar c = true →
          EndsWord (spaceIf (space (ofLexeme n lexeme) u) ++ written space (u :: us)) :=
        fun hc => endsWord_written (spaced _ _) hts (opening.endsWord_rest hc)
      have text : (ofLexeme n lexeme).text.toList = lexeme.text := String.toList_ofList
      have rest := ih (m + Text.width lexeme.text +
        Text.width (spaceIf (space (ofLexeme n lexeme) u)))
      rw [hts] at rest
      rw [written, placed, text, moved, scan_lexeme notGap opening closed ends, scan_spaceIf, rest]
      rfl

/-- The tokens of a text in which tokens are written again. -/
theorem body_written (spaced : ∀ t u, gapBetween t u = true → space t u = true) (text : String) :
    body (.ofList (written space (body text))) = placed space 0 (body text) := by
  rw [body_eq_scan, String.toList_ofList, body_eq_scan, scan_written spaced]

/-- With a space between any two of them, the texts of tokens are interspersed with
    spaces. -/
theorem ofList_written_true (ts : List Token) :
    String.ofList (written (fun _ _ => true) ts) = " ".intercalate (ts.map (·.text)) := by
  have spaced : written (fun _ _ => true) ts = [' '].intercalate (ts.map (·.text.toList)) := by
    induction ts with
    | nil => rfl
    | cons t ts ih =>
      rcases ts with - | ⟨u, us⟩
      · exact List.intercalate_singleton.symm
      · rw [written, ih]
        simp only [List.map_cons, List.intercalate_cons_cons, List.append_assoc]
        rfl
  rw [spaced, ← String.toList_inj, String.toList_ofList, String.toList_intercalate, List.map_map]
  rfl

theorem tokenize_eq_append (text : String) :
    tokenize text = body text ++ [endAt (Text.width text.toList)] := by
  rw [body_eq_scan, tokenize]

/-- The end says the same in all texts. -/
theorem map_content_tokenize (text : String) :
    (tokenize text).map content = (body text).map content ++ [(.endOfText, "", "")] := by
  rw [tokenize_eq_append, List.map_append]
  rfl

/-! ## One space for each gap -/

theorem body_respace (text : String) :
    body (respace text) = placed gapBetween 0 (body text) :=
  body_written (fun _ _ gap => gap) text

/-- What is written depends on the texts of the tokens, and on where the spaces are. -/
theorem written_congr {space space' : Token → Token → Bool} {ts us : List Token}
    (texts : ts.map (·.text) = us.map (·.text)) (spaces : between space ts = between space' us) :
    written space ts = written space' us := by
  induction ts generalizing us with
  | nil =>
    obtain rfl := List.map_eq_nil_iff.1 texts.symm
    rfl
  | cons t ts ih =>
    obtain ⟨u, us, rfl, text, texts⟩ := List.map_eq_cons_iff.1 texts.symm
    rcases ts with - | ⟨t', ts⟩
    · obtain rfl := List.map_eq_nil_iff.1 texts
      rw [written, written, text]
    · obtain ⟨u', us, rfl, text', texts⟩ := List.map_eq_cons_iff.1 texts
      obtain ⟨first, others⟩ := List.cons.inj spaces
      have texts : (t' :: ts).map (·.text) = (u' :: us).map (·.text) := by
        rw [List.map_cons, List.map_cons, text', texts]
      rw [written, written, ih texts others, text, first]

/-- A text with one space for each gap is its own normal form. -/
theorem respace_respace (text : String) : respace (respace text) = respace text := by
  rw [respace, body_respace, respace]
  refine congrArg String.ofList (written_congr ?_ (between_placed _ _ _))
  have said := congrArg (List.map (·.2.1)) (map_content_placed gapBetween 0 (body text))
  rw [List.map_map, List.map_map] at said
  exact said

/-- Tokens that are written with their gaps read alike. -/
theorem readAlike_placed {ts : List Token} (genuine : ∀ t ∈ ts, t.Genuine) (n a b : Nat) :
    ReadAlike (ts ++ [endAt a]) (placed gapBetween n ts ++ [endAt b]) := by
  -- moving a token changes its place and nothing else
  have alike {t : Token} (h : t.Genuine) (n : Nat) : t.Alike (t.movedTo n) :=
    ⟨h, ⟨Nat.le_add_right n _, h.spelled⟩, rfl, fun _ _ => rfl⟩
  have ends : ReadAlike [endAt a] [endAt b] :=
    .last ⟨genuine_endAt a, genuine_endAt b, rfl, fun _ _ => rfl⟩ rfl
  induction ts generalizing n with
  | nil => exact ends
  | cons t ts ih =>
    obtain ⟨first, others⟩ := List.forall_mem_cons.1 genuine
    rcases ts with - | ⟨u, us⟩
    · exact .cons (alike first n) (fun notEnd => absurd rfl notEnd) (fun _ _ _ => rfl) ends
    · obtain ⟨m, vs, hrest, hwhole, gap⟩ := exists_placed_cons_cons gapBetween n t u us
      have rest := ih others m
      rw [hrest] at rest
      rw [hwhole]
      refine .cons (alike first n) (fun _ => ?_) (fun _ _ _ => rfl) rest
      simpa [gapBetween, startsAt] using (Bool.eq_iff_iff.1 (Bool.not_inj gap)).symm

/-- A text reads like itself with one space for each gap. -/
theorem readAlike_respace (text : String) :
    ReadAlike (tokenize text) (tokenize (respace text)) := by
  have genuine : ∀ t ∈ body text, t.Genuine := body_eq_scan text ▸ genuine_of_mem_scan
  rw [tokenize_eq_append, tokenize_eq_append (respace text), body_respace]
  exact readAlike_placed genuine 0 _ _

end Token

/-- The tokens of a text are kept when it is written from them again. With one space
    between any two of them, they have the same kinds, texts and values; with one
    space for each gap, there are also gaps between the same ones. -/
theorem tokenize_respaced (text : String) :
    let tokens := Token.body text
    let spaced := " ".intercalate (tokens.map (·.text))
    let close := Token.respace text
    (Token.tokenize spaced).map Token.content = (Token.tokenize text).map Token.content ∧
    (Token.tokenize close).map Token.content = (Token.tokenize text).map Token.content ∧
    Token.between Token.gapBetween (Token.body close) =
      Token.between Token.gapBetween tokens := by
  intro tokens spaced close
  have hspaced : Token.body spaced = Token.placed (fun _ _ => true) 0 tokens := by
    rw [← Token.body_written fun _ _ _ => rfl, Token.ofList_written_true]
  have hclose : Token.body close = Token.placed Token.gapBetween 0 tokens :=
    Token.body_respace text
  refine ⟨?_, ?_, ?_⟩
  · rw [Token.map_content_tokenize, hspaced, Token.map_content_placed, Token.map_content_tokenize]
  · rw [Token.map_content_tokenize, hclose, Token.map_content_placed, Token.map_content_tokenize]
  · rw [hclose, Token.between_placed]

example : Token.respace " a  .b\t=c 'd  \n" = "a .b =c 'd  \n" := by decide +kernel

end ConnectorQuery
