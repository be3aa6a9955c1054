import Ownership.Proofs.Grammar

/-! # Where a form stops

Tokens that are read one after the other may begin a derivation for a while, until one comes that no
derivation has behind those before it. The form stops before that token, or at the end of the tokens
if each of them has its place. What stops a form that is put together is what stops the part that is
being read.
-/
namespace Ownership.Listing

theorem head?_append_of_mem {t : Token} {taken rest us : List Token} (ht : t ∈ rest.head?) :
    (taken ++ t :: us).head? = (taken ++ rest).head? := by
  cases taken with
  | nil => exact ht.symm
  | cons u taken => rfl

namespace Form
variable {f g : Form} {ts rest r r' us : List Token}

theorem nonempty_tree (f : Form) : Nonempty f.Tree := by
  have htoken : ∀ kind, Nonempty (Tok kind) := fun kind => ⟨⟨kind, "", .unknown⟩, rfl⟩
  induction f with
  | empty => exact ⟨()⟩
  | token kind => exact htoken kind
  | type =>
    obtain ⟨name⟩ := htoken .name
    exact ⟨.named name⟩
  | seq f g ihf ihg =>
    obtain ⟨x⟩ := ihf
    obtain ⟨y⟩ := ihg
    exact ⟨(x, y)⟩
  | alt f g ihf _ =>
    obtain ⟨x⟩ := ihf
    exact ⟨.inl x⟩
  | opt f _ => exact ⟨none⟩
  | star f _ => exact ⟨[]⟩
  | listed f ih =>
    obtain ⟨x⟩ := ih
    exact ⟨(x, [], none)⟩

/-- Reading some tokens, a form stops before the rest of them. The tokens before the rest begin a
derivation. With the next token behind them they begin none, not even together with what may follow
it. -/
def Stops (f : Form) (ts rest : List Token) : Prop :=
  ∃ taken, taken ++ rest = ts ∧ (∃ x, taken <+: f.tokens x) ∧
    ∀ t ∈ rest.head?, ∀ x r us, f.Ends x r → f.tokens x ++ r ≠ taken ++ t :: us

def Delimited (f : Form) : Prop :=
  ∀ ⦃x x' : f.Tree⦄ ⦃r r' : List Token⦄, f.Ends x r → f.Ends x' r' →
    f.tokens x ++ r = f.tokens x' ++ r' → r = r'

theorem Ends.congr_head {x : f.Tree} (hend : f.Ends x r) (h : r'.head? = r.head?) :
    f.Ends x r' := by
  rwa [Ends, h]

/-- At the end of the tokens nothing is refused. -/
theorem stops_nil (f : Form) : f.Stops [] [] := by
  obtain ⟨x⟩ := f.nonempty_tree
  exact ⟨[], rfl, ⟨x, List.nil_prefix⟩, fun t ht => by cases ht⟩

/-- A form stops at once if no derivation starts with the next token. -/
theorem stops_self (h : ∀ t ∈ ts.head?, ∀ x r us, f.Ends x r → f.tokens x ++ r ≠ t :: us) :
    f.Stops ts ts := by
  obtain ⟨x⟩ := f.nonempty_tree
  exact ⟨[], rfl, ⟨x, List.nil_prefix⟩, h⟩

theorem ne_of_firsts (hnull : f.nullable = false) (x : f.Tree)
    (h : ∀ t ∈ us.head?, t.kind ∉ f.firsts) : f.tokens x ++ r ≠ us := by
  rintro rfl
  exact not_ends_of_append hnull h

theorem stops_of_firsts (hnull : f.nullable = false) (h : ∀ t ∈ ts.head?, t.kind ∉ f.firsts) :
    f.Stops ts ts :=
  stops_self fun t ht x r us _ => ne_of_firsts hnull x fun u hu => by
    cases hu
    exact h t ht

/-- Forms that have the same tokens stop at the same places. -/
theorem Stops.of_tokens (h : f.Stops ts rest)
    (hto : ∀ x : f.Tree, ∃ y : g.Tree, g.tokens y = f.tokens x)
    (hfrom : ∀ (y : g.Tree) r, g.Ends y r → ∃ x : f.Tree, f.Ends x r ∧ f.tokens x = g.tokens y) :
    g.Stops ts rest := by
  obtain ⟨taken, rfl, ⟨x, hx⟩, hrefuse⟩ := h
  obtain ⟨y, hy⟩ := hto x
  refine ⟨taken, rfl, ⟨y, hy ▸ hx⟩, fun t ht y r us hend heq => ?_⟩
  obtain ⟨x, hend, hx⟩ := hfrom y r hend
  exact hrefuse t ht x r us hend (hx ▸ heq)

theorem Stops.seq_left (h : f.Stops ts rest) (hapart : apart f.afters g.firsts = true) :
    (seq f g).Stops ts rest := by
  obtain ⟨taken, rfl, ⟨x, hx⟩, hrefuse⟩ := h
  obtain ⟨y⟩ := g.nonempty_tree
  refine ⟨taken, rfl, ⟨(x, y), hx.trans (List.prefix_append ..)⟩, ?_⟩
  rintro t ht ⟨x, y⟩ r us hend heq
  rw [tokens_seq, List.append_assoc] at heq
  exact hrefuse t ht x _ us (hend.append hapart) heq

theorem Stops.seq_right (h : g.Stops us rest) (hf : f.Delimited)
    (hapart : apart f.afters g.firsts = true) {x : f.Tree} (hx : f.Ends x us) :
    (seq f g).Stops (f.tokens x ++ us) rest := by
  obtain ⟨taken, rfl, ⟨y, hy⟩, hrefuse⟩ := h
  refine ⟨f.tokens x ++ taken, List.append_assoc ..,
    ⟨(x, y), (List.prefix_append_right_inj _).mpr hy⟩, ?_⟩
  rintro t ht ⟨x', y'⟩ r us hend heq
  rw [tokens_seq, List.append_assoc, List.append_assoc] at heq
  have hx' : f.Ends x (taken ++ t :: us) := hx.congr_head (head?_append_of_mem ht)
  exact hrefuse t ht y' r us hend.second (hf (hend.append hapart) hx' heq)

theorem Stops.inSome (h : f.Stops ts rest) (hfirst : ∀ t ∈ ts.head?, t.kind ∈ f.firsts) :
    (opt f).Stops ts rest := by
  obtain ⟨taken, rfl, ⟨x, hx⟩, hrefuse⟩ := h
  refine ⟨taken, rfl, ⟨some x, by rwa [tokens_some]⟩, ?_⟩
  rintro t ht (_ | x) r us hend heq
  · rw [tokens_none, List.nil_append] at heq
    have hhead : r.head? = (taken ++ rest).head? := heq ▸ head?_append_of_mem ht
    cases hr : r.head? with
    | none => simp [heq] at hr
    | some u => exact hend u hr (hfirst u (hhead ▸ hr))
  · rw [tokens_some] at heq
    exact hrefuse t ht x r us hend heq

/-- Of two alternatives the one stops that is being read, if what the other one takes from the same
start is a derivation of the first one too. -/
theorem Stops.inl (h : f.Stops ts rest)
    (hother : ∀ (y : g.Tree) r, g.Ends y r → (g.tokens y ++ r).head? = ts.head? →
      ∃ x : f.Tree, f.Ends x r ∧ f.tokens x ++ r = g.tokens y ++ r) : (alt f g).Stops ts rest := by
  obtain ⟨taken, rfl, ⟨x, hx⟩, hrefuse⟩ := h
  refine ⟨taken, rfl, ⟨.inl x, hx⟩, ?_⟩
  rintro t ht (x | y) r us hend heq
  · exact hrefuse t ht x r us hend heq
  · obtain ⟨x, hx, htokens⟩ := hother y r hend (heq ▸ head?_append_of_mem ht)
    exact hrefuse t ht x r us hx (htokens.trans heq)

theorem Stops.swap (h : (alt f g).Stops ts rest) : (alt g f).Stops ts rest :=
  h.of_tokens (fun x => ⟨x.swap, by cases x <;> rfl⟩) fun y r hend =>
    ⟨y.swap, by cases y <;> exact ⟨hend, rfl⟩⟩

theorem Stops.inl_of_firsts (h : f.Stops ts rest) (hnull : g.nullable = false)
    (hfirst : ∀ t ∈ ts.head?, t.kind ∉ g.firsts) : (alt f g).Stops ts rest :=
  h.inl fun y r _ hhead => absurd rfl (ne_of_firsts (r := r) hnull y (hhead ▸ hfirst))

theorem Stops.inr_of_firsts (h : g.Stops ts rest) (hnull : f.nullable = false)
    (hfirst : ∀ t ∈ ts.head?, t.kind ∉ f.firsts) : (alt f g).Stops ts rest :=
  (h.inl_of_firsts hnull hfirst).swap

theorem ends_seq_none (hnull : g.nullable = false) {y : g.Tree} :
    (seq (opt f) g).Ends (none, y) r ↔ g.Ends y r := by
  obtain ⟨t, l, hy, -⟩ := exists_first hnull y
  simp [Ends, after, hy]

/-- What may be missing in front gives two alternatives. -/
theorem stops_expand_iff (hnull : g.nullable = false) :
    (alt (seq f g) g).Stops ts rest ↔ (seq (opt f) g).Stops ts rest := by
  have htokens : ∀ x y, (seq (opt f) g).tokens (some x, y) =
      (alt (seq f g) g).tokens (.inl (x, y)) := fun x y => by
    rw [tokens_seq, tokens_some]
    rfl
  refine ⟨fun h => h.of_tokens ?_ ?_, fun h => h.of_tokens ?_ ?_⟩
  · rintro (⟨x, y⟩ | y)
    · exact ⟨(some x, y), htokens x y⟩
    · exact ⟨(none, y), rfl⟩
  · rintro ⟨_ | x, y⟩ r hend
    · exact ⟨.inr y, (ends_seq_none hnull).mp hend, rfl⟩
    · exact ⟨.inl (x, y), hend, (htokens x y).symm⟩
  · rintro ⟨_ | x, y⟩
    · exact ⟨.inr y, rfl⟩
    · exact ⟨.inl (x, y), (htokens x y).symm⟩
  · rintro (⟨x, y⟩ | y) r hend
    · exact ⟨(some x, y), hend, htokens x y⟩
    · exact ⟨(none, y), (ends_seq_none hnull).mpr hend, rfl⟩

/-- A common beginning may be read first. -/
theorem Stops.factor {h : Form} (hstop : (seq f (alt g h)).Stops ts rest) :
    (alt (seq f g) (seq f h)).Stops ts rest := by
  refine hstop.of_tokens ?_ ?_
  · rintro ⟨x, y | z⟩
    · exact ⟨.inl (x, y), rfl⟩
    · exact ⟨.inr (x, z), rfl⟩
  · rintro (⟨x, y⟩ | ⟨x, z⟩) r hend
    · exact ⟨(x, .inl y), hend, rfl⟩
    · exact ⟨(x, .inr z), hend, rfl⟩

/-- What stands behind an element of a list up to a closing sign: the sign, or a comma and more of
the list. -/
def listedRest (f : Form) (close : Sign) : Form :=
  alt (token (.sign close)) (seq (token (.sign .comma)) (row [opt (listed f), token (.sign close)]))

def listedStep (f : Form) (close : Sign) : Form :=
  alt (token (.sign close)) (seq f (listedRest f close))

theorem Stops.of_listedStep {close : Sign} (h : (listedStep f close).Stops ts rest) :
    (row [opt (listed f), token (.sign close)]).Stops ts rest := by
  have hends : ∀ (x : (listedStep f close).Tree) r, (listedStep f close).Ends x r := by
    rintro (c | ⟨x, c | ⟨comma, l, c, u⟩⟩) r <;> simp [Ends, listedStep, listedRest, after, tokens]
  refine h.of_tokens ?_ ?_
  · rintro (c | ⟨x, c | ⟨comma, _ | ⟨y, ys, last⟩, c, -⟩⟩)
    · exact ⟨(none, c, ()), rfl⟩
    · exact ⟨(some (x, [], none), c, ()), by simp [listedStep, listedRest, tokens]⟩
    · exact ⟨(some (x, [], some comma), c, ()), by simp [listedStep, listedRest, tokens]⟩
    · exact ⟨(some (x, (comma, y) :: ys, last), c, ()), by simp [listedStep, listedRest, tokens]⟩
  · rintro ⟨_ | ⟨x, _ | ⟨⟨comma, y⟩, ys⟩, last⟩, c, -⟩ r -
    · exact ⟨.inl c, hends _ r, rfl⟩
    · cases last with
      | none => exact ⟨.inr (x, .inl c), hends _ r, by simp [listedStep, listedRest, tokens]⟩
      | some comma =>
        exact ⟨.inr (x, .inr (comma, none, c, ())), hends _ r,
          by simp [listedStep, listedRest, tokens]⟩
    · exact ⟨.inr (x, .inr (comma, some (y, ys, last), c, ())), hends _ r,
        by simp [listedStep, listedRest, tokens]⟩

def typeStep : Form :=
  alt (token .name) (alt (row [token (.sign .openBracket), type, token (.sign .closeBracket)])
    (row [token (.sign .ampersand), opt (token .lifetime), opt (token (.keyword .mutable)), type]))

theorem Stops.of_typeStep (h : typeStep.Stops ts rest) : type.Stops ts rest := by
  have hends : ∀ (x : typeStep.Tree) r, typeStep.Ends x r := by
    rintro (name | ⟨opening, element, closing, u⟩ | ⟨mark, lifetime, mutable, inner, u⟩) r
    · exact fun _ _ => List.not_mem_nil
    · simp [Ends, typeStep, after, tokens]
    · obtain ⟨t, l, hinner, -⟩ := inner.head_tokens
      simp [Ends, typeStep, after, tokens, hinner]
  refine h.of_tokens ?_ ?_
  · rintro (name | ⟨opening, element, closing, u⟩ | ⟨mark, lifetime, mutable, inner, u⟩)
    · exact ⟨.named name, rfl⟩
    · exact ⟨.array opening element closing, by simp [typeStep, tokens, TypeTree.tokens]⟩
    · exact ⟨.ref mark lifetime mutable inner, by simp [typeStep, tokens, TypeTree.tokens]⟩
  · rintro (name | ⟨opening, element, closing⟩ | ⟨mark, lifetime, mutable, inner⟩) r -
    · exact ⟨.inl name, hends _ r, rfl⟩
    · exact ⟨.inr (.inl (opening, element, closing, ())), hends _ r,
        by simp [typeStep, tokens, TypeTree.tokens]⟩
    · exact ⟨.inr (.inr (mark, lifetime, mutable, inner, ())), hends _ r,
        by simp [typeStep, tokens, TypeTree.tokens]⟩

end Form
end Ownership.Listing
