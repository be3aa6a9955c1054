import Ownership.Proofs.Outcome
import Ownership.Proofs.Parsing

/-! # The first token that cannot stand

A listing that breaks a rule of the grammar is refused where it cannot be saved any more. The tokens
before that place can go on to those of some listing, and with the token there they cannot. If there
is no such token then the text ends too early, or at a character that starts no token.
-/
namespace Ownership.Listing
open Form

def Viable (ts : List Token) : Prop := ∃ x, ts <+: Syntax.program.tokens x

theorem Viable.of_prefix {l ts : List Token} (h : Viable ts) (hl : l <+: ts) : Viable l := by
  obtain ⟨x, hx⟩ := h
  exact ⟨x, hl.trans hx⟩

structure FirstImpossible (tokens before : List Token) (t : Token) : Prop where
  stands : before ++ [t] <+: tokens
  possible : Viable before
  impossible : ¬Viable (before ++ [t])

/-- A text that starts at a position is made of some tokens and of gaps between them up to a
character, at another position, that starts neither. -/
inductive Breaks (file : Option String) : Position → List Char → List Token → Char → Position → Prop
  | here {p : Position} {c : Char} {cs : List Char} : (∀ piece w, Lexeme piece w → ¬w <+: c :: cs) →
      Breaks file p (c :: cs) [] c p
  | gap {p q : Position} {w rest : List Char} {tokens : List Token} {c : Char} :
      Lexeme .gap w → Longest w rest →
      Breaks file (w.foldl Position.advance p) rest tokens c q →
      Breaks file p (w ++ rest) tokens c q
  | token {p q : Position} {kind : TokenKind} {w rest : List Char} {tokens : List Token}
      {c : Char} :
      Lexeme (.token kind) w → Longest w rest →
        Breaks file (w.foldl Position.advance p) rest tokens c q →
      Breaks file p (w ++ rest)
        (⟨kind, String.ofList w, p.span (w.foldl Position.advance p) file⟩ :: tokens) c q

section Breaks
variable {file : Option String} {n : Nat} {p q : Position} {text : List Char}
    {tokens : List Token} {c : Char}

theorem Breaks.scanFrom_eq (h : Breaks file p text tokens c q) (hn : text.length ≤ n) :
    scanFrom file n p text = ⟨tokens, .badCharacter c q⟩ := by
  induction h generalizing n with
  | @here p c cs hnone =>
    have hmunch : munch? (c :: cs) = none := by
      cases hfound : munch? (c :: cs) with
      | none => rfl
      | some found =>
        obtain ⟨piece, w, rest⟩ := found
        have htakes := takes_of_munch? hfound
        exact absurd (htakes.append ▸ List.prefix_append w rest) (hnone piece w htakes.lexeme)
    obtain ⟨n, rfl⟩ := Nat.exists_eq_succ_of_ne_zero (Nat.ne_zero_of_lt hn)
    rw [scanFrom, hmunch]
  | @gap p q w rest tokens c hw hlongest _ ih =>
    have htakes : Takes (w ++ rest) .gap w rest := ⟨rfl, hw, hlongest⟩
    have hlength := htakes.length_lt
    obtain ⟨n, rfl⟩ :=
      Nat.exists_eq_succ_of_ne_zero (Nat.ne_zero_of_lt (Nat.lt_of_lt_of_le hlength hn))
    rw [htakes.scanFrom_gap]
    exact ih (by omega)
  | @token p q kind w rest tokens c hw hlongest _ ih =>
    have htakes : Takes (w ++ rest) (.token kind) w rest := ⟨rfl, hw, hlongest⟩
    have hlength := htakes.length_lt
    obtain ⟨n, rfl⟩ :=
      Nat.exists_eq_succ_of_ne_zero (Nat.ne_zero_of_lt (Nat.lt_of_lt_of_le hlength hn))
    rw [htakes.scanFrom_token, ih (n := n) (by omega)]

theorem breaks_of_scanFrom (hn : text.length ≤ n)
    (h : scanFrom file n p text = ⟨tokens, .badCharacter c q⟩) : Breaks file p text tokens c q := by
  induction n generalizing p text tokens with
  | zero =>
    obtain rfl := List.length_eq_zero_iff.mp (Nat.le_zero.mp hn)
    cases h
  | succ n ih =>
    cases text with
    | nil => cases h
    | cons d cs =>
      cases hmunch : munch? (d :: cs) with
      | none =>
        rw [scanFrom, hmunch] at h
        cases h
        refine .here fun piece w hw hprefix => ?_
        obtain ⟨rest, hrest⟩ := hprefix
        exact not_lexeme_of_munch? hmunch w rest hrest.symm hw
      | some found =>
        obtain ⟨piece, w, rest⟩ := found
        have htakes := takes_of_munch? hmunch
        have hlength := htakes.length_lt
        cases piece with
        | gap =>
          rw [htakes.scanFrom_gap] at h
          rw [htakes.append]
          exact .gap htakes.lexeme htakes.longest (ih (by omega) h)
        | token kind =>
          rw [htakes.scanFrom_token] at h
          obtain ⟨rfl, hstop⟩ := Scan.mk.inj h
          rw [htakes.append]
          refine .token htakes.lexeme htakes.longest (ih (by omega) ?_)
          rw [← hstop]

theorem breaks_iff_scan {source : String} : Breaks file {} source.toList tokens c q ↔
    scan source file = ⟨tokens, .badCharacter c q⟩ :=
  ⟨fun h => h.scanFrom_eq (Nat.le_refl _), breaks_of_scanFrom (Nat.le_refl _)⟩

theorem splits_or_breaks (source : String) (file : Option String) :
    (∃ tokens, Splits file {} source.toList tokens) ∨
      ∃ tokens c q, Breaks file {} source.toList tokens c q := by
  simp only [splits_iff_scan, breaks_iff_scan]
  rcases scan source file with ⟨tokens, _ | ⟨c, q⟩⟩
  · exact .inl ⟨tokens, rfl⟩
  · exact .inr ⟨tokens, c, q, rfl⟩

end Breaks

theorem of_items_error {ts rest : List Token} (h : Parser.items.run ts = .error rest) :
    ∃ taken, taken ++ rest = ts ∧ Viable taken ∧ ∀ t ∈ rest.head?, ¬Viable (taken ++ [t]) := by
  obtain ⟨taken, hts, hbegin, hrefuse⟩ :=
    Parser.of_manyUpTo_error Parser.reads_item rfl (by decide) h
  refine ⟨taken, hts, hbegin, ?_⟩
  rintro t ht ⟨x, us, hx⟩
  exact hrefuse t ht x [] us (ends_of_nil x) (by simp)
    ((List.append_nil _).trans (hx.symm.trans (List.append_assoc ..)))

/-- A text that is no listing is refused at what is left when no listing can go on. -/
theorem parse_eq_stopError (source : String) (file : Option String)
    (h : (scan source file).stop = .finished →
      ∀ x, Syntax.program.tokens x ≠ (scan source file).tokens) :
    ∃ taken rest, taken ++ rest = (scan source file).tokens ∧ Viable taken ∧
      (∀ t ∈ rest.head?, ¬Viable (taken ++ [t])) ∧
      parse source file = .error (stopError file (scan source file) rest) := by
  cases hrun : Parser.items.run (scan source file).tokens with
  | error rest =>
    obtain ⟨taken, hts, hbegin, hrefuse⟩ := of_items_error hrun
    refine ⟨taken, rest, hts, hbegin, hrefuse, ?_⟩
    rw [parse, parseItems]
    simp only [hrun]
    rfl
  | ok result =>
    obtain ⟨items, rest⟩ := result
    obtain ⟨rfl, x, hx, -⟩ := Parser.run_items.mp hrun
    have hstop : (scan source file).stop ≠ .finished := fun hstop => h hstop x hx
    refine ⟨(scan source file).tokens, [], List.append_nil _, ⟨x, hx ▸ List.prefix_refl _⟩,
      fun t ht => (by cases ht), ?_⟩
    rw [parse, parseItems]
    simp only [hrun, hstop, decide_false, Bool.and_false, Bool.false_eq_true, if_false]
    rfl

theorem first_impossible_or_viable {tokens taken rest : List Token} (hts : taken ++ rest = tokens)
    (hbegin : Viable taken) (hrefuse : ∀ t ∈ rest.head?, ¬Viable (taken ++ [t])) :
    (∃ before t later, rest = t :: later ∧ FirstImpossible tokens before t) ∨ rest = [] ∧
      ∀ l, l <+: tokens → Viable l := by
  subst hts
  cases rest with
  | nil =>
    rw [List.append_nil]
    exact .inr ⟨rfl, fun l hl => hbegin.of_prefix hl⟩
  | cons t later =>
    refine .inl ⟨taken, t, later, rfl, ⟨later, ?_⟩, hbegin, hrefuse t rfl⟩
    rw [List.append_assoc, List.singleton_append]

/-- Syntax errors are reported at the first impossible token. A text splits into tokens, or breaks
at a character. If the tokens are not those of a listing, the error is at the first one that no
listing has behind those before it. If there is none, it is at the end of the input, in the place of
the last token, or at the character. -/
theorem parse_first_impossible (source : String) (file : Option String) :
    ((∃ tokens, Splits file {} source.toList tokens) ∨
      ∃ tokens c q, Breaks file {} source.toList tokens c q) ∧
    (∀ tokens, Splits file {} source.toList tokens → (∀ x, Syntax.program.tokens x ≠ tokens) →
      (∃ before t, FirstImpossible tokens before t ∧
        parse source file = .error (.at (.unexpectedToken t.text) t.span.start)) ∨
      (∀ l, l <+: tokens → Viable l) ∧ ∃ last problem, tokens.getLast? = some last ∧
        problem.message = "unexpected end of input" ∧
        parse source file = .error (.at problem last.span.start)) ∧
    ∀ tokens c q, Breaks file {} source.toList tokens c q →
      (∃ before t, FirstImpossible tokens before t ∧
        parse source file = .error (.at (.unexpectedToken t.text) t.span.start)) ∨
      (∀ l, l <+: tokens → Viable l) ∧
        parse source file = .error (.at (.unexpectedCharacter c) (q.point file)) := by
  refine ⟨splits_or_breaks source file, fun tokens hsplits hunderivable => ?_,
    fun tokens c q hbreaks => ?_⟩
  · have hscan := splits_iff_scan.mp hsplits
    obtain ⟨taken, rest, hts, hbegin, hrefuse, hparse⟩ :=
      parse_eq_stopError source file fun _ => by rwa [hscan]
    rw [hscan] at hts hparse
    rcases first_impossible_or_viable hts hbegin hrefuse
      with ⟨before, t, later, rfl, hfirst⟩ | ⟨rfl, hall⟩
    · exact .inl ⟨before, t, hfirst, hparse⟩
    · -- No tokens at all are those of a listing without items.
      have hne : tokens ≠ [] := fun hnil => hunderivable [] hnil.symm
      refine .inr ⟨hall, tokens.getLast hne, .unexpectedEnd,
        List.getLast?_eq_some_getLast hne, rfl, ?_⟩
      rw [hparse, stopError, List.getLast?_eq_some_getLast hne]
      rfl
  · have hscan := breaks_iff_scan.mp hbreaks
    obtain ⟨taken, rest, hts, hbegin, hrefuse, hparse⟩ :=
      parse_eq_stopError source file fun hstop => by
        rw [hscan] at hstop
        cases hstop
    rw [hscan] at hts hparse
    rcases first_impossible_or_viable hts hbegin hrefuse
      with ⟨before, t, later, rfl, hfirst⟩ | ⟨rfl, hall⟩
    · exact .inl ⟨before, t, hfirst, hparse⟩
    · exact .inr ⟨hall, hparse⟩

theorem ne_tokens_of_not_isOk {ts : List Token} (h : (Parser.items.run ts).isOk = false)
    (x : Syntax.program.Tree) : Syntax.program.tokens x ≠ ts := by
  intro hx
  rw [Parser.run_items.mpr ⟨rfl, x, hx, rfl⟩] at h
  cases h

def missingSemicolon : String := "fn f() \x7b entry: use x use x; return; \x7d"

def openFunction : String := "fn f() \x7b entry: return;"

/-- A character that starts no token stands before a token that would be impossible. -/
def strayCharacter : String := "fn f() \x7b entry: use $; use use; \x7d"

theorem parse_first_impossible_texts :
    (∃ before t, FirstImpossible (scan missingSemicolon none).tokens before t ∧ t.text = "use" ∧
      t.span.start = Position.point ⟨1, 23⟩ none) ∧
    ((∀ l, l <+: (scan openFunction none).tokens → Viable l) ∧
      parse openFunction none = .error (.at .unexpectedEnd (Position.point ⟨1, 23⟩ none))) ∧
    (∀ l, l <+: (scan strayCharacter none).tokens → Viable l) ∧
      parse strayCharacter none =
        .error (.at (.unexpectedCharacter '$') (Position.point ⟨1, 21⟩ none)) := by
  have hmissing : parse missingSemicolon none =
      .error (.at (.unexpectedToken "use") (Position.point ⟨1, 23⟩ none)) := by decide +kernel
  have hopen : parse openFunction none =
      .error (.at .unexpectedEnd (Position.point ⟨1, 23⟩ none)) := by
    decide +kernel
  have hstray : parse strayCharacter none =
      .error (.at (.unexpectedCharacter '$') (Position.point ⟨1, 21⟩ none)) := by decide +kernel
  refine ⟨?_, ⟨?_, hopen⟩, ?_, hstray⟩
  · have hsplits : Splits none {} missingSemicolon.toList (scan missingSemicolon none).tokens :=
      splits_iff_scan.mpr (by decide +kernel)
    rcases (parse_first_impossible missingSemicolon none).2.1 _ hsplits
      (ne_tokens_of_not_isOk (by decide +kernel)) with
      ⟨before, t, hfirst, hparse⟩ | ⟨-, last, problem, -, hmessage, hparse⟩
    · obtain ⟨htext, hspan⟩ := Error.at.inj (Except.error.inj (hmissing.symm.trans hparse))
      exact ⟨before, t, hfirst, (Problem.unexpectedToken.inj htext).symm, hspan.symm⟩
    · obtain ⟨rfl, -⟩ := Error.at.inj (Except.error.inj (hmissing.symm.trans hparse))
      exact absurd hmessage (by decide +kernel)
  · have hsplits : Splits none {} openFunction.toList (scan openFunction none).tokens :=
      splits_iff_scan.mpr (by decide +kernel)
    rcases (parse_first_impossible openFunction none).2.1 _ hsplits
      (ne_tokens_of_not_isOk (by decide +kernel)) with
      ⟨before, t, -, hparse⟩ | ⟨hall, -⟩
    · cases hopen.symm.trans hparse
    · exact hall
  · have hbreaks : Breaks none {} strayCharacter.toList (scan strayCharacter none).tokens
        '$' ⟨1, 21⟩ :=
      breaks_iff_scan.mpr (by decide +kernel)
    rcases (parse_first_impossible strayCharacter none).2.2 _ _ _ hbreaks
      with ⟨before, t, -, hparse⟩ | ⟨hall, -⟩
    · cases hstray.symm.trans hparse
    · exact hall

end Ownership.Listing
