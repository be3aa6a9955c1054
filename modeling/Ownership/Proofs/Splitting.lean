import Ownership.Listing.Token

/-! # How a text splits into tokens

The tokens and gaps of the language are given by the characters that they are made of. A text splits
if it is made of them one after the other, where each is the longest that fits. Splitting takes a
text apart in this way whenever there is one, and there is never more than one.
-/
namespace Ownership.Listing

def Sign.text : Sign → String
  | openBrace => "\x7b"
  | closeBrace => "\x7d"
  | openParen => "("
  | closeParen => ")"
  | openBracket => "["
  | closeBracket => "]"
  | less => "<"
  | greater => ">"
  | colon => ":"
  | semicolon => ";"
  | comma => ","
  | equals => "="
  | ampersand => "&"
  | plus => "+"
  | rightArrow => "->"
  | leftArrow => "<-"

inductive Lexeme : Piece → List Char → Prop
  | blanks {cs : List Char} : cs ≠ [] → (∀ c ∈ cs, isBlank c = true) → Lexeme .gap cs
  | comment {start cs : List Char} :
      start = ['#'] ∨ start = ['/', '/'] → '\n' ∉ cs → Lexeme .gap (start ++ cs)
  | keyword (k : Keyword) : Lexeme (.token (.keyword k)) k.text.toList
  | sign (s : Sign) : Lexeme (.token (.sign s)) s.text.toList
  | name {c : Char} {cs : List Char} : isNameStart c = true → (∀ d ∈ cs, isNameChar d = true) →
      (∀ k : Keyword, k.text.toList ≠ c :: cs) → Lexeme (.token .name) (c :: cs)
  | lifetime {c : Char} {cs : List Char} : isNameStart c = true → (∀ d ∈ cs, isNameChar d = true) →
      Lexeme (.token .lifetime) ('\'' :: c :: cs)

def Longest (w rest : List Char) : Prop :=
  ∀ piece v, Lexeme piece v → v <+: w ++ rest → v.length ≤ w.length

inductive Splits (file : Option String) : Position → List Char → List Token → Prop
  | done {p : Position} : Splits file p [] []
  | gap {p : Position} {w rest : List Char} {tokens : List Token} : Lexeme .gap w → Longest w rest →
      Splits file (w.foldl Position.advance p) rest tokens → Splits file p (w ++ rest) tokens
  | token {p : Position} {kind : TokenKind} {w rest : List Char} {tokens : List Token} :
      Lexeme (.token kind) w →
      Longest w rest → Splits file (w.foldl Position.advance p) rest tokens →
      Splits file p (w ++ rest)
        (⟨kind, String.ofList w, p.span (w.foldl Position.advance p) file⟩ :: tokens)

theorem Keyword.text_injective {k l : Keyword} (h : k.text = l.text) : k = l := by
  revert h
  cases k <;> cases l <;> decide

theorem Keyword.ofText?_eq_some {s : String} {k : Keyword} :
    Keyword.ofText? s = some k ↔ k.text = s := by
  constructor
  · intro h
    simpa using List.find?_some h
  · rintro rfl
    have hall : k ∈ Keyword.all := by cases k <;> decide
    cases h : ofText? k.text with
    | none => simpa using List.find?_eq_none.mp h k hall
    | some l => rw [text_injective (k := l) (by simpa using List.find?_some h)]

theorem Keyword.toList_text (k : Keyword) :
    ∃ c cs, k.text.toList = c :: cs ∧ isNameStart c = true ∧ ∀ d ∈ cs, isNameChar d = true := by
  cases k <;> exact ⟨_, _, rfl, by decide, List.all_eq_true.mp (by decide)⟩

theorem wordKind_of_name {cs : List Char} (h : ∀ k : Keyword, k.text.toList ≠ cs) :
    wordKind cs = .name := by
  cases hk : Keyword.ofText? (String.ofList cs) with
  | none => simp [wordKind, hk]
  | some k => exact absurd (by rw [Keyword.ofText?_eq_some.mp hk, String.toList_ofList]) (h k)

theorem wordKind_text (k : Keyword) : wordKind k.text.toList = .keyword k := by
  have hk : Keyword.ofText? (String.ofList k.text.toList) = some k := by
    rw [Keyword.ofText?_eq_some, String.ofList_toList]
  rw [wordKind, hk]

/-- Every word is a name or a reserved word. -/
theorem lexeme_wordKind {c : Char} {cs : List Char} (hc : isNameStart c = true)
    (hcs : ∀ d ∈ cs, isNameChar d = true) : Lexeme (.token (wordKind (c :: cs))) (c :: cs) := by
  by_cases h : ∃ k : Keyword, k.text.toList = c :: cs
  · obtain ⟨k, hk⟩ := h
    rw [← hk, wordKind_text]
    exact .keyword k
  · have hname : ∀ k : Keyword, k.text.toList ≠ c :: cs := fun k hk => h ⟨k, hk⟩
    rw [wordKind_of_name hname]
    exact .name hc hcs hname

theorem signOf?_eq_some {c : Char} {s : Sign} : signOf? c = some s ↔ s.text.toList = [c] := by
  constructor
  · fun_cases signOf? c <;> rintro ⟨⟩ <;> subst_vars <;> rfl
  · intro h
    cases s <;> cases h <;> rfl

theorem Sign.toList_text_injective {s t : Sign} (h : s.text.toList = t.text.toList) : s = t := by
  revert h
  cases s <;> cases t <;> decide

/-- A sign has one character, or is an arrow. -/
theorem Sign.toList_text (s : Sign) : ∃ c v, s.text.toList = c :: v ∧
    (v = [] ∨ (c = '-' ∧ v = ['>']) ∨ (c = '<' ∧ v = ['-'])) ∧ c ∉ ['#', '/', '\''] ∧
    isBlank c = false ∧ isNameStart c = false := by
  cases s <;> exact ⟨_, _, rfl, by decide⟩

theorem isNameStart_of_isBlank {c : Char} (h : isBlank c = true) : isNameStart c = false := by
  simp only [isBlank, Bool.or_eq_true, decide_eq_true_eq] at h
  rcases h with (((rfl | rfl) | rfl) | rfl) | rfl <;> decide

theorem isNameChar_of_isNameStart {c : Char} (h : isNameStart c = true) : isNameChar c = true := by
  simp only [isNameStart, isNameChar, Char.isAlphanum, Bool.or_eq_true] at h ⊢
  exact h.imp_left .inl

theorem length_le_takeWhile {p : Char → Bool} {v cs : List Char} (hv : ∀ d ∈ v, p d = true)
    (h : v <+: cs) : v.length ≤ (cs.takeWhile p).length := by
  obtain ⟨rest, rfl⟩ := h
  rw [List.takeWhile_append_of_pos hv, List.length_append]
  exact Nat.le_add_right ..

namespace Lexeme
variable {piece piece' : Piece} {c : Char} {v w rest : List Char}

theorem exists_cons (h : Lexeme piece w) : ∃ c v, w = c :: v := by
  cases h with
  | blanks hne _ => exact List.exists_cons_of_ne_nil hne
  | comment hstart _ => rcases hstart with rfl | rfl <;> exact ⟨_, _, rfl⟩
  | keyword k =>
    obtain ⟨c, cs, hk, -⟩ := k.toList_text
    exact ⟨c, cs, hk⟩
  | sign s =>
    obtain ⟨c, cs, hs, -⟩ := s.toList_text
    exact ⟨c, cs, hs⟩
  | name | lifetime => exact ⟨_, _, rfl⟩

/-- The first character tells what can follow. -/
theorem cons_cases (h : Lexeme piece (c :: v)) :
    (isBlank c = true ∧ piece = .gap ∧ ∀ d ∈ v, isBlank d = true) ∨
    (c = '#' ∧ piece = .gap ∧ '\n' ∉ v) ∨
    (c = '/' ∧ piece = .gap ∧ ∃ u, v = '/' :: u ∧ '\n' ∉ u) ∨
    (isNameStart c = true ∧ piece = .token (wordKind (c :: v)) ∧ ∀ d ∈ v, isNameChar d = true) ∨
    (c = '\'' ∧ piece = .token .lifetime ∧ ∃ d u, v = d :: u ∧ isNameStart d = true ∧
      ∀ d ∈ v, isNameChar d = true) ∨
    ∃ s : Sign, piece = .token (.sign s) ∧ s.text.toList = c :: v := by
  generalize hw : c :: v = w at h
  cases h with
  | blanks _ hcs =>
    subst hw
    exact .inl ⟨hcs c List.mem_cons_self, rfl, fun d hd => hcs d (List.mem_cons_of_mem _ hd)⟩
  | comment hstart hcs =>
    rcases hstart with rfl | rfl
    · cases hw
      exact .inr (.inl ⟨rfl, rfl, hcs⟩)
    · cases hw
      exact .inr (.inr (.inl ⟨rfl, rfl, _, rfl, hcs⟩))
  | keyword k =>
    obtain ⟨d, u, hk, hd, hu⟩ := k.toList_text
    cases hw.trans hk
    exact .inr (.inr (.inr (.inl ⟨hd, by rw [wordKind_text], hu⟩)))
  | sign s => exact .inr (.inr (.inr (.inr (.inr ⟨s, rfl, rfl⟩))))
  | name hc hcs hk =>
    cases hw
    exact .inr (.inr (.inr (.inl ⟨hc, by rw [wordKind_of_name hk], hcs⟩)))
  | lifetime hd hcs =>
    cases hw
    exact .inr (.inr (.inr (.inr
      (.inl ⟨rfl, rfl, _, _, rfl, hd, by simpa using ⟨isNameChar_of_isNameStart hd, hcs⟩⟩))))

theorem blank_inv (h : Lexeme piece (c :: v)) (hc : isBlank c = true) :
    piece = .gap ∧ ∀ d ∈ v, isBlank d = true := by
  rcases h.cons_cases with h | ⟨rfl, -⟩ | ⟨rfl, -⟩ | ⟨hn, -⟩ | ⟨rfl, -⟩ | ⟨s, -, hs⟩
  · exact h.2
  · cases hc
  · cases hc
  · simp [isNameStart_of_isBlank hc] at hn
  · cases hc
  · obtain ⟨_, _, hs', -, -, hblank, -⟩ := s.toList_text
    cases hs.symm.trans hs'
    simp [hc] at hblank

theorem hash_inv (h : Lexeme piece ('#' :: v)) : piece = .gap ∧ '\n' ∉ v := by
  rcases h.cons_cases with ⟨hc, -⟩ | h | ⟨hc, -⟩ | ⟨hc, -⟩ | ⟨hc, -⟩ | ⟨s, -, hs⟩
  · cases hc
  · exact h.2
  · cases hc
  · cases hc
  · cases hc
  · obtain ⟨_, _, hs', -, hc, -⟩ := s.toList_text
    cases hs.symm.trans hs'
    simp at hc

theorem slash_inv (h : Lexeme piece ('/' :: v)) : piece = .gap ∧ ∃ u, v = '/' :: u ∧ '\n' ∉ u := by
  rcases h.cons_cases with ⟨hc, -⟩ | ⟨hc, -⟩ | h | ⟨hc, -⟩ | ⟨hc, -⟩ | ⟨s, -, hs⟩
  · cases hc
  · cases hc
  · exact h.2
  · cases hc
  · cases hc
  · obtain ⟨_, _, hs', -, hc, -⟩ := s.toList_text
    cases hs.symm.trans hs'
    simp at hc

theorem word_inv (h : Lexeme piece (c :: v)) (hc : isNameStart c = true) :
    piece = .token (wordKind (c :: v)) ∧ ∀ d ∈ v, isNameChar d = true := by
  rcases h.cons_cases with ⟨hb, -⟩ | ⟨rfl, -⟩ | ⟨rfl, -⟩ | h | ⟨rfl, -⟩ | ⟨s, -, hs⟩
  · simp [isNameStart_of_isBlank hb] at hc
  · cases hc
  · cases hc
  · exact h.2
  · cases hc
  · obtain ⟨_, _, hs', -, -, -, hname⟩ := s.toList_text
    cases hs.symm.trans hs'
    simp [hc] at hname

theorem quote_inv (h : Lexeme piece ('\'' :: v)) :
    piece = .token .lifetime ∧ ∃ d u, v = d :: u ∧ isNameStart d = true ∧
      ∀ d ∈ v, isNameChar d = true := by
  rcases h.cons_cases with ⟨hc, -⟩ | ⟨hc, -⟩ | ⟨hc, -⟩ | ⟨hc, -⟩ | h | ⟨s, -, hs⟩
  · cases hc
  · cases hc
  · cases hc
  · cases hc
  · exact h.2
  · obtain ⟨_, _, hs', -, hc, -⟩ := s.toList_text
    cases hs.symm.trans hs'
    simp at hc

/-- What starts with another character is a sign. -/
theorem sign_inv (h : Lexeme piece (c :: v)) (hblank : isBlank c = false)
    (hname : isNameStart c = false) (hc : c ∉ ['#', '/', '\'']) :
    ∃ s : Sign, piece = .token (.sign s) ∧ s.text.toList = c :: v := by
  rcases h.cons_cases with ⟨hb, -⟩ | ⟨rfl, -⟩ | ⟨rfl, -⟩ | ⟨hn, -⟩ | ⟨rfl, -⟩ | h
  · simp [hblank] at hb
  · simp at hc
  · simp at hc
  · simp [hname] at hn
  · simp at hc
  · exact h

theorem piece_unique (h : Lexeme piece w) (h' : Lexeme piece' w) : piece = piece' := by
  obtain ⟨c, v, rfl⟩ := h.exists_cons
  rcases h.cons_cases with ⟨hc, rfl, -⟩ | ⟨rfl, rfl, -⟩ | ⟨rfl, rfl, -⟩ | ⟨hc, rfl, -⟩
    | ⟨rfl, rfl, -⟩ | ⟨s, rfl, hs⟩
  · exact (h'.blank_inv hc).1.symm
  · exact h'.hash_inv.1.symm
  · exact h'.slash_inv.1.symm
  · exact (h'.word_inv hc).1.symm
  · exact h'.quote_inv.1.symm
  · obtain ⟨_, _, hs', -, hc, hblank, hname⟩ := s.toList_text
    cases hs.symm.trans hs'
    obtain ⟨t, rfl, ht⟩ := h'.sign_inv hblank hname hc
    rw [Sign.toList_text_injective (hs.trans ht.symm)]

end Lexeme

theorem longest_cons {c : Char} {u rest : List Char}
    (h : ∀ piece v, Lexeme piece (c :: v) → v <+: u ++ rest → v.length ≤ u.length) :
    Longest (c :: u) rest := by
  intro piece v hv hprefix
  obtain ⟨d, v, rfl⟩ := hv.exists_cons
  obtain ⟨rfl, htail⟩ := List.cons_prefix_cons.mp hprefix
  exact Nat.succ_le_succ (h piece v hv htail)

theorem Longest.unique {w w' rest rest' : List Char} {piece piece' : Piece} (hw : Lexeme piece w)
    (hw' : Lexeme piece' w') (h : Longest w rest) (h' : Longest w' rest')
    (heq : w ++ rest = w' ++ rest') : w = w' ∧ rest = rest' := by
  have hle := h' piece w hw (heq ▸ List.prefix_append w rest)
  have hge := h piece' w' hw' (heq ▸ List.prefix_append w' rest')
  exact List.append_inj heq (Nat.le_antisymm hle hge)

structure Takes (text : List Char) (piece : Piece) (w rest : List Char) : Prop where
  append : text = w ++ rest
  lexeme : Lexeme piece w
  longest : Longest w rest

section Munch
variable {c : Char} {cs w rest : List Char} {piece : Piece}

theorem forall_mem_takeWhile (p : Char → Bool) (cs : List Char) :
    ∀ d ∈ cs.takeWhile p, p d = true :=
  List.all_eq_true.mp List.all_takeWhile

/-- A piece whose characters behind the first are told by a test. -/
theorem takes_takeWhile {p : Char → Bool} (h : Lexeme piece (c :: cs.takeWhile p))
    (hinv : ∀ piece v, Lexeme piece (c :: v) → ∀ d ∈ v, p d = true) :
    Takes (c :: cs) piece (c :: cs.takeWhile p) (cs.dropWhile p) where
  append := by rw [List.cons_append, List.takeWhile_append_dropWhile]
  lexeme := h
  longest := longest_cons fun piece v hv hprefix => by
    rw [List.takeWhile_append_dropWhile] at hprefix
    exact length_le_takeWhile (hinv piece v hv) hprefix

theorem takes_blanks (h : isBlank c = true) :
    Takes (c :: cs) .gap (c :: cs.takeWhile isBlank) (cs.dropWhile isBlank) :=
  takes_takeWhile (.blanks (List.cons_ne_nil _ _)
    (List.forall_mem_cons.mpr ⟨h, forall_mem_takeWhile _ _⟩)) fun _ _ hv => (hv.blank_inv h).2

theorem takes_comment (h : c = '#' ∨ c = '/' ∧ cs.head? = some '/') :
    Takes (c :: cs) .gap (c :: cs.takeWhile (· != '\n')) (cs.dropWhile (· != '\n')) := by
  have hline : ∀ {l : List Char}, '\n' ∉ l → ∀ d ∈ l, (d != '\n') = true := fun hl d hd => by
    rw [bne_iff_ne]
    rintro rfl
    exact hl hd
  have hbody : ∀ l : List Char, '\n' ∉ l.takeWhile (· != '\n') := fun l hl => by
    simpa using forall_mem_takeWhile _ _ _ hl
  rcases h with rfl | ⟨rfl, hhead⟩
  · exact takes_takeWhile (.comment (.inl rfl) (hbody cs)) fun _ _ hv => hline hv.hash_inv.2
  · obtain ⟨ds, rfl⟩ : ∃ ds, cs = '/' :: ds := List.head?_eq_some_iff.mp hhead
    refine takes_takeWhile (.comment (.inr rfl) (hbody ds)) fun _ v hv => ?_
    obtain ⟨-, u, rfl, hu⟩ := hv.slash_inv
    exact hline (by simpa using hu)

theorem takes_word (h : isNameStart c = true) :
    Takes (c :: cs) (.token (wordKind (c :: cs.takeWhile isNameChar)))
    (c :: cs.takeWhile isNameChar) (cs.dropWhile isNameChar) :=
  takes_takeWhile (lexeme_wordKind h (forall_mem_takeWhile _ _)) fun _ _ hv => (hv.word_inv h).2

theorem takes_lifetime (h : isNameStart c = true) : Takes ('\'' :: c :: cs) (.token .lifetime)
    ('\'' :: (c :: cs).takeWhile isNameChar) ((c :: cs).dropWhile isNameChar) := by
  refine takes_takeWhile ?_ fun _ v hv => ?_
  · rw [List.takeWhile_cons_of_pos (isNameChar_of_isNameStart h)]
    exact .lifetime h (forall_mem_takeWhile _ _)
  · obtain ⟨-, _, _, -, -, hall⟩ := hv.quote_inv
    exact hall

theorem takes_sign {s : Sign} {u : List Char} (h : s.text.toList = c :: u)
    (hmax : ∀ (t : Sign) v, t.text.toList = c :: v → v <+: u ++ rest → v.length ≤ u.length) :
    Takes (c :: u ++ rest) (.token (.sign s)) (c :: u) rest where
  append := rfl
  lexeme := h ▸ .sign s
  longest := longest_cons fun piece v hv hprefix => by
    obtain ⟨_, _, hs, -, hc, hblank, hname⟩ := s.toList_text
    cases h.symm.trans hs
    obtain ⟨t, -, ht⟩ := hv.sign_inv hblank hname hc
    exact hmax t v ht hprefix

/-- The other signs that start with a character make an arrow of it. -/
theorem arrow_of_sign {t : Sign} {v : List Char} (h : t.text.toList = c :: v) :
    v = [] ∨ (c = '-' ∧ v = ['>']) ∨ (c = '<' ∧ v = ['-']) := by
  obtain ⟨_, _, ht, harrow, -⟩ := t.toList_text
  cases h.symm.trans ht
  exact harrow

theorem takes_arrow {s : Sign} {d : Char} (h : s.text.toList = [c, d]) :
    Takes (c :: d :: cs) (.token (.sign s)) [c, d] cs :=
  takes_sign h fun t v ht _ => by
    rcases arrow_of_sign ht with rfl | ⟨-, rfl⟩ | ⟨-, rfl⟩
    · exact Nat.zero_le _
    · exact Nat.le_refl _
    · exact Nat.le_refl _

theorem takes_mark {s : Sign} (h : signOf? c = some s) (hright : ¬(c = '-' ∧ cs.head? = some '>'))
    (hleft : ¬(c = '<' ∧ cs.head? = some '-')) : Takes (c :: cs) (.token (.sign s)) [c] cs :=
  takes_sign (signOf?_eq_some.mp h) fun t v ht hprefix => by
    obtain ⟨ds, hds⟩ := hprefix
    rcases arrow_of_sign ht with rfl | ⟨rfl, rfl⟩ | ⟨rfl, rfl⟩
    · exact Nat.le_refl _
    · exact absurd ⟨rfl, by rw [← List.nil_append cs, ← hds]; rfl⟩ hright
    · exact absurd ⟨rfl, by rw [← List.nil_append cs, ← hds]; rfl⟩ hleft

theorem takes_of_munch? {text : List Char} :
    munch? text = some (piece, w, rest) → Takes text piece w rest := by
  fun_cases munch? text with
  | case1 | case6 | case7 => rintro ⟨⟩
  | case2 c cs hblank =>
    rintro ⟨⟩
    exact takes_blanks hblank
  | case3 c cs _ hcomment =>
    rintro ⟨⟩
    exact takes_comment hcomment
  | case4 c cs _ _ hname word =>
    intro h
    simp only [Option.some.injEq, Prod.mk.injEq] at h
    obtain ⟨rfl, rfl, rfl⟩ := h
    exact takes_word hname
  | case5 d ds hname =>
    rintro ⟨⟩
    exact takes_lifetime hname
  | case8 c cs _ _ _ _ hright =>
    obtain ⟨rfl, hhead⟩ := hright
    obtain ⟨ds, rfl⟩ := List.head?_eq_some_iff.mp hhead
    rintro ⟨⟩
    exact takes_arrow rfl
  | case9 c cs _ _ _ _ _ hleft =>
    obtain ⟨rfl, hhead⟩ := hleft
    obtain ⟨ds, rfl⟩ := List.head?_eq_some_iff.mp hhead
    rintro ⟨⟩
    exact takes_arrow rfl
  | case10 c cs _ _ _ _ hright hleft =>
    intro h
    obtain ⟨s, hs, heq⟩ := Option.map_eq_some_iff.mp h
    cases heq
    exact takes_mark hs hright hleft

/-- Where no piece is found, none fits. -/
theorem not_lexeme_of_munch? {text : List Char} :
    munch? text = none → ∀ v rest, text = v ++ rest → ¬Lexeme piece v := by
  fun_cases munch? text with
  | case2 | case3 | case4 | case5 | case8 | case9 => rintro ⟨⟩
  | case1 =>
    rintro - v rest heq hv
    obtain ⟨c, v, rfl⟩ := hv.exists_cons
    cases heq
  | case6 d ds hname =>
    rintro - v rest heq hv
    obtain ⟨c, v, rfl⟩ := hv.exists_cons
    obtain ⟨rfl, hrest⟩ := List.cons.inj heq
    obtain ⟨-, e, u, rfl, he, -⟩ := hv.quote_inv
    cases hrest
    exact hname he
  | case7 =>
    rintro - v rest heq hv
    obtain ⟨c, v, rfl⟩ := hv.exists_cons
    obtain ⟨rfl, hrest⟩ := List.cons.inj heq
    obtain ⟨-, d, u, rfl, -⟩ := hv.quote_inv
    cases hrest
  | case10 c cs hblank hcomment hname hquote hright hleft =>
    intro h v rest heq hv
    obtain ⟨d, v, rfl⟩ := hv.exists_cons
    obtain ⟨rfl, rfl⟩ := List.cons.inj heq
    have hsign : signOf? c = none := Option.map_eq_none_iff.mp h
    rcases hv.cons_cases with ⟨hc, -⟩ | ⟨hc, -⟩ | ⟨hc, -, u, rfl, -⟩ | ⟨hc, -⟩ | ⟨hc, -⟩
      | ⟨s, -, hs⟩
    · exact hblank hc
    · exact hcomment (.inl hc)
    · exact hcomment (.inr ⟨hc, rfl⟩)
    · exact hname hc
    · exact hquote hc
    · rcases arrow_of_sign hs with rfl | ⟨hc, rfl⟩ | ⟨hc, rfl⟩
      · cases hsign.symm.trans (signOf?_eq_some.mpr hs)
      · exact hright ⟨hc, rfl⟩
      · exact hleft ⟨hc, rfl⟩

theorem munch?_eq_some {text : List Char} :
    munch? text = some (piece, w, rest) ↔ Takes text piece w rest := by
  refine ⟨takes_of_munch?, fun h => ?_⟩
  cases hmunch : munch? text with
  | none => exact absurd h.lexeme (not_lexeme_of_munch? hmunch w rest h.append)
  | some found =>
    obtain ⟨piece', w', rest'⟩ := found
    have h' := takes_of_munch? hmunch
    obtain ⟨rfl, rfl⟩ :=
      h.longest.unique h.lexeme h'.lexeme h'.longest (h.append.symm.trans h'.append)
    rw [h.lexeme.piece_unique h'.lexeme]

end Munch

section Takes
variable {file : Option String} {n : Nat} {p : Position} {text w rest : List Char} {piece : Piece}

theorem Takes.length_lt (h : Takes text piece w rest) : rest.length < text.length := by
  obtain ⟨d, v, rfl⟩ := h.lexeme.exists_cons
  rw [h.append, List.length_append, List.length_cons]
  omega

theorem Takes.scanFrom_gap (h : Takes text .gap w rest) :
    scanFrom file (n + 1) p text = scanFrom file n (w.foldl Position.advance p) rest := by
  have hmunch := munch?_eq_some.mpr h
  cases text with
  | nil => cases hmunch
  | cons d cs => rw [scanFrom, hmunch]

theorem Takes.scanFrom_token {kind : TokenKind} (h : Takes text (.token kind) w rest) :
    scanFrom file (n + 1) p text =
      ⟨⟨kind, String.ofList w, p.span (w.foldl Position.advance p) file⟩ ::
          (scanFrom file n (w.foldl Position.advance p) rest).tokens,
        (scanFrom file n (w.foldl Position.advance p) rest).stop⟩ := by
  have hmunch := munch?_eq_some.mpr h
  cases text with
  | nil => cases hmunch
  | cons d cs => rw [scanFrom, hmunch]

end Takes

namespace Splits
variable {file : Option String} {n : Nat} {p : Position} {text w rest : List Char}
    {tokens : List Token}

theorem cases_takes (h : Splits file p text tokens) : (text = [] ∧ tokens = []) ∨
    (∃ w rest, Takes text .gap w rest ∧ Splits file (w.foldl Position.advance p) rest tokens) ∨
    ∃ kind w rest later, Takes text (.token kind) w rest ∧
      Splits file (w.foldl Position.advance p) rest later ∧
      tokens = ⟨kind, String.ofList w, p.span (w.foldl Position.advance p) file⟩ :: later := by
  cases h with
  | done => exact .inl ⟨rfl, rfl⟩
  | gap hw hlongest hrest => exact .inr (.inl ⟨_, _, ⟨rfl, hw, hlongest⟩, hrest⟩)
  | token hw hlongest hrest => exact .inr (.inr ⟨_, _, _, _, ⟨rfl, hw, hlongest⟩, hrest, rfl⟩)

theorem gap_iff (h : Takes text .gap w rest) :
    Splits file p text tokens ↔ Splits file (w.foldl Position.advance p) rest tokens := by
  constructor
  · intro hsplits
    have hmunch := munch?_eq_some.mpr h
    rcases hsplits.cases_takes
      with ⟨rfl, -⟩ | ⟨w', rest', h', hrest⟩ | ⟨kind, w', rest', later, h', -⟩
    · cases hmunch
    · cases hmunch.symm.trans (munch?_eq_some.mpr h')
      exact hrest
    · cases hmunch.symm.trans (munch?_eq_some.mpr h')
  · rw [h.append]
    exact .gap h.lexeme h.longest

theorem token_iff {kind : TokenKind} (h : Takes text (.token kind) w rest) :
    Splits file p text tokens ↔ ∃ later, Splits file (w.foldl Position.advance p) rest later ∧
      tokens = ⟨kind, String.ofList w, p.span (w.foldl Position.advance p) file⟩ :: later := by
  constructor
  · intro hsplits
    have hmunch := munch?_eq_some.mpr h
    rcases hsplits.cases_takes
      with ⟨rfl, -⟩ | ⟨w', rest', h', -⟩ | ⟨kind', w', rest', later, h', hrest⟩
    · cases hmunch
    · cases hmunch.symm.trans (munch?_eq_some.mpr h')
    · cases hmunch.symm.trans (munch?_eq_some.mpr h')
      exact ⟨later, hrest⟩
  · rintro ⟨later, hrest, rfl⟩
    rw [h.append]
    exact .token h.lexeme h.longest hrest

theorem nil_iff : Splits file p [] tokens ↔ tokens = [] := by
  constructor
  · intro hsplits
    rcases hsplits.cases_takes with ⟨-, rfl⟩ | ⟨_, _, h, -⟩ | ⟨_, _, _, _, h, -⟩
    · rfl
    · cases munch?_eq_some.mpr h
    · cases munch?_eq_some.mpr h
  · rintro rfl
    exact .done

theorem not_of_munch? {c : Char} {cs : List Char} (h : munch? (c :: cs) = none) :
    ¬Splits file p (c :: cs) tokens := by
  intro hsplits
  rcases hsplits.cases_takes with ⟨heq, -⟩ | ⟨_, _, h', -⟩ | ⟨_, _, _, _, h', -⟩
  · cases heq
  · cases h.symm.trans (munch?_eq_some.mpr h')
  · cases h.symm.trans (munch?_eq_some.mpr h')

/-- A text splits into the tokens that are found, if all of it is used up, and into no others. -/
theorem iff_scanFrom (hn : text.length ≤ n) :
    Splits file p text tokens ↔ scanFrom file n p text = ⟨tokens, .finished⟩ := by
  have hnil : ∀ (n : Nat) (p : Position) (tokens : List Token),
      Splits file p [] tokens ↔ scanFrom file n p [] = ⟨tokens, .finished⟩ := by
    intro n p tokens
    rw [nil_iff, scanFrom, Scan.mk.injEq]
    exact ⟨fun h => ⟨h.symm, rfl⟩, fun h => h.1.symm⟩
  induction n generalizing p text tokens with
  | zero =>
    obtain rfl := List.length_eq_zero_iff.mp (Nat.le_zero.mp hn)
    exact hnil _ _ _
  | succ n ih =>
    cases text with
    | nil => exact hnil _ _ _
    | cons c cs =>
      rw [scanFrom]
      cases hmunch : munch? (c :: cs) with
      | none => exact ⟨fun h => absurd h (not_of_munch? hmunch), fun h => by cases h⟩
      | some found =>
        obtain ⟨piece, w, rest⟩ := found
        have htakes := munch?_eq_some.mp hmunch
        obtain ⟨d, v, rfl⟩ := htakes.lexeme.exists_cons
        have hrest : rest.length ≤ n := by
          have hlength := congrArg List.length htakes.append
          simp only [List.length_append, List.length_cons] at hlength hn
          omega
        cases piece with
        | gap => exact (gap_iff htakes).trans (ih hrest)
        | token kind =>
          simp only [token_iff htakes, ih hrest, Scan.mk.injEq]
          constructor
          · rintro ⟨later, hlater, rfl⟩
            rw [hlater]
            exact ⟨rfl, rfl⟩
          · rintro ⟨rfl, hstop⟩
            exact ⟨_, by rw [← hstop], rfl⟩

end Splits

theorem splits_iff_scan {source : String} {file : Option String} {tokens : List Token} :
    Splits file {} source.toList tokens ↔ scan source file = ⟨tokens, .finished⟩ :=
  Splits.iff_scanFrom (Nat.le_refl _)

end Ownership.Listing
