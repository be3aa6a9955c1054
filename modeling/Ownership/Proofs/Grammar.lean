import Ownership.Listing.Token

/-! # Grammars whose next token decides

A form says which sequences of tokens may stand somewhere, with the operators of an extended
grammar. A tree of a form is a derivation from it: the tokens, in the places that the form has for
them. From a form one reads off with which kinds of tokens its trees start and which kinds go on
what is complete already. Where these never meet, or where alternatives differ behind a common
beginning, two trees with the same tokens are the same tree.
-/
namespace Ownership.Listing

abbrev Tok (kind : TokenKind) := { t : Token // t.kind = kind }

/-- The derivations of a type, the one thing in a listing that nests. -/
inductive TypeTree
  | named (name : Tok .name)
  | array (opening : Tok (.sign .openBracket)) (element : TypeTree)
      (closing : Tok (.sign .closeBracket))
  | ref (mark : Tok (.sign .ampersand)) (lifetime : Option (Tok .lifetime))
      (mutable : Option (Tok (.keyword .mutable)))
    (inner : TypeTree)

def TypeTree.tokens : TypeTree → List Token
  | named name => [name.1]
  | array opening element closing => opening.1 :: element.tokens ++ [closing.1]
  | ref mark lifetime mutable inner =>
    mark.1 :: (lifetime.toList.map Subtype.val ++ mutable.toList.map Subtype.val) ++ inner.tokens

inductive Form
  | empty
  | token (kind : TokenKind)
  | type
  | seq (first second : Form)
  | alt (left right : Form)
  | opt (form : Form)
  | star (form : Form)
  /-- One or more with commas between them and perhaps one behind. -/
  | listed (form : Form)

namespace Form

@[reducible] def row : List Form → Form
  | [] => empty
  | f :: fs => seq f (row fs)

@[reducible] def Tree : Form → Type
  | empty => Unit
  | token kind => Tok kind
  | type => TypeTree
  | seq f g => f.Tree × g.Tree
  | alt f g => f.Tree ⊕ g.Tree
  | opt f => Option f.Tree
  | star f => List f.Tree
  | listed f => f.Tree × List (Tok (.sign .comma) × f.Tree) × Option (Tok (.sign .comma))

def tokens : (f : Form) → f.Tree → List Token
  | empty, _ => []
  | token _, t => [t.1]
  | type, t => t.tokens
  | seq f g, x => f.tokens x.1 ++ g.tokens x.2
  | alt f _, .inl x => f.tokens x
  | alt _ g, .inr y => g.tokens y
  | opt f, x => x.toList.flatMap f.tokens
  | star f, xs => xs.flatMap f.tokens
  | listed f, x =>
    f.tokens x.1 ++ (x.2.1.flatMap (fun c => c.1.1 :: f.tokens c.2) ++ x.2.2.toList.map Subtype.val)

def nullable : Form → Bool
  | empty => true
  | token _ => false
  | type => false
  | seq f g => f.nullable && g.nullable
  | alt f g => f.nullable || g.nullable
  | opt _ => true
  | star _ => true
  | listed f => f.nullable

def firsts : Form → List TokenKind
  | empty => []
  | token kind => [kind]
  | type => [.name, .sign .openBracket, .sign .ampersand]
  | seq f g => f.firsts ++ if f.nullable then g.firsts else []
  | alt f g => f.firsts ++ g.firsts
  | opt f => f.firsts
  | star f => f.firsts
  | listed f => f.firsts ++ if f.nullable then [.sign .comma] else []

/-- The kinds of tokens that a derivation could go on with. -/
def after : (f : Form) → f.Tree → List TokenKind
  | empty, _ => []
  | token _, _ => []
  | type, _ => []
  | seq f g, x => g.after x.2 ++ if (g.tokens x.2).isEmpty then f.after x.1 else []
  | alt f _, .inl x => f.after x
  | alt _ g, .inr y => g.after y
  | opt f, none => f.firsts
  | opt f, some x => f.after x
  | star f, xs => f.firsts ++ (xs.getLast?.map f.after).getD []
  | listed f, (_, _, some _) => f.firsts
  | listed f, (x, xs, none) => .sign .comma :: f.after ((xs.getLast?.map Prod.snd).getD x)

def afters : Form → List TokenKind
  | empty => []
  | token _ => []
  | type => []
  | seq f g => g.afters ++ if g.nullable then f.afters else []
  | alt f g => f.afters ++ g.afters
  | opt f => f.firsts ++ f.afters
  | star f => f.firsts ++ f.afters
  | listed f => .sign .comma :: (f.firsts ++ f.afters)

def Ends (f : Form) (x : f.Tree) (rest : List Token) : Prop := ∀ t ∈ rest.head?, t.kind ∉ f.after x

def apart (ks ls : List TokenKind) : Bool := ks.all fun k => !ls.contains k

/-- The tokens tell two forms apart, perhaps only behind a common beginning. -/
def differ : Form → Form → Bool
  | seq (token k) f, seq (token l) g => if k = l then differ f g else true
  | f, g => !f.nullable && !g.nullable && apart f.firsts g.firsts

/-- The tokens so far and the next one decide how to go on. -/
def predictive : Form → Bool
  | empty => true
  | token _ => true
  | type => true
  | seq f g => f.predictive && g.predictive && apart f.afters g.firsts
  | alt f g => f.predictive && g.predictive && differ f g
  | opt f => f.predictive && !f.nullable
  | star f => f.predictive && !f.nullable && apart f.afters f.firsts
  | listed f => f.predictive && !f.nullable && apart f.afters [.sign .comma]

section
variable {f g : Form} {r r' : List Token}

theorem apart_iff {ks ls : List TokenKind} : apart ks ls = true ↔ ∀ k ∈ ks, k ∉ ls := by
  simp [apart]

@[simp] theorem tokens_seq (x : f.Tree) (y : g.Tree) :
    (seq f g).tokens (x, y) = f.tokens x ++ g.tokens y := rfl

@[simp] theorem tokens_none : (opt f).tokens none = [] := rfl

@[simp] theorem tokens_some (x : f.Tree) : (opt f).tokens (some x) = f.tokens x :=
  List.flatMap_singleton ..

@[simp] theorem tokens_nil : (star f).tokens [] = [] := rfl

@[simp] theorem tokens_cons (x : f.Tree) (xs : List f.Tree) :
    (star f).tokens (x :: xs) = f.tokens x ++ (star f).tokens xs := List.flatMap_cons

end

end Form

/-- A token that may be missing is known from what follows it, if that does not start with a token
of its kind. -/
theorem option_eq_of_append {k : TokenKind} {o o' : Option (Tok k)} {r r' : List Token}
    (h : o.toList.map Subtype.val ++ r = o'.toList.map Subtype.val ++ r')
    (hr : ∀ t ∈ r.head?, t.kind ≠ k) (hr' : ∀ t ∈ r'.head?, t.kind ≠ k) : o = o' ∧ r = r' := by
  cases o with
  | none =>
    cases o' with
    | none => exact ⟨rfl, h⟩
    | some t' =>
      subst h
      exact absurd t'.2 (hr _ rfl)
  | some t =>
    cases o' with
    | none =>
      subst h
      exact absurd t.2 (hr' _ rfl)
    | some t' =>
      injection h with ht hrest
      exact ⟨congrArg some (Subtype.ext ht), hrest⟩

namespace TypeTree

theorem head_tokens (x : TypeTree) : ∃ t l, x.tokens = t :: l ∧ t.kind ∈ Form.type.firsts := by
  cases x with
  | named name => exact ⟨_, _, rfl, by simp [Form.firsts, name.2]⟩
  | array opening element closing => exact ⟨_, _, rfl, by simp [Form.firsts, opening.2]⟩
  | ref mark lifetime mutable inner => exact ⟨_, _, rfl, by simp [Form.firsts, mark.2]⟩

theorem kind_head_ne {k : TokenKind} (hk : k ∉ Form.type.firsts) (x : TypeTree) (r : List Token) :
    ∀ t ∈ (x.tokens ++ r).head?, t.kind ≠ k := by
  obtain ⟨t, l, hx, hfirst⟩ := x.head_tokens
  rw [hx]
  rintro _ ⟨⟩ rfl
  exact hk hfirst

/-- What follows the place for a lifetime in a reference does not start with one. -/
theorem kind_head_ne_lifetime (o : Option (Tok (.keyword .mutable))) (x : TypeTree)
    (r : List Token) :
    ∀ t ∈ (o.toList.map Subtype.val ++ (x.tokens ++ r)).head?, t.kind ≠ .lifetime := by
  cases o with
  | none => exact kind_head_ne (by decide) x r
  | some m =>
    rintro _ ⟨⟩ hm
    cases m.2.symm.trans hm

/-- No type is the beginning of another one. -/
theorem eq_of_append (x : TypeTree) {x' : TypeTree} {r r' : List Token}
    (h : x.tokens ++ r = x'.tokens ++ r') : x = x' ∧ r = r' := by
  induction x generalizing x' r r' with
  | named name =>
    have hkind := congrArg (fun l => l.head?.map Token.kind) h
    cases x' with
    | named name' =>
      injection h with hname hrest
      exact ⟨congrArg _ (Subtype.ext hname), hrest⟩
    | array opening' _ _ => simp [tokens, name.2, opening'.2] at hkind
    | ref mark' _ _ _ => simp [tokens, name.2, mark'.2] at hkind
  | array opening element closing ih =>
    have hkind := congrArg (fun l => l.head?.map Token.kind) h
    cases x' with
    | named name' => simp [tokens, name'.2, opening.2] at hkind
    | array opening' element' closing' =>
      simp only [tokens, List.cons_append, List.append_assoc, List.cons.injEq, List.nil_append] at h
      obtain ⟨rfl, hrest⟩ := ih h.2
      injection hrest with hclosing hrest
      cases Subtype.ext h.1
      cases Subtype.ext hclosing
      exact ⟨rfl, hrest⟩
    | ref mark' _ _ _ => simp [tokens, opening.2, mark'.2] at hkind
  | ref mark lifetime mutable inner ih =>
    have hkind := congrArg (fun l => l.head?.map Token.kind) h
    cases x' with
    | named name' => simp [tokens, name'.2, mark.2] at hkind
    | array opening' _ _ => simp [tokens, opening'.2, mark.2] at hkind
    | ref mark' lifetime' mutable' inner' =>
      simp only [tokens, List.cons_append, List.append_assoc, List.cons.injEq] at h
      obtain ⟨rfl, hrest⟩ :=
        option_eq_of_append h.2 (kind_head_ne_lifetime _ _ _) (kind_head_ne_lifetime _ _ _)
      obtain ⟨rfl, hinner⟩ :=
        option_eq_of_append hrest (kind_head_ne (by decide) _ _) (kind_head_ne (by decide) _ _)
      obtain ⟨rfl, rfl⟩ := ih hinner
      cases Subtype.ext h.1
      exact ⟨rfl, rfl⟩

end TypeTree

namespace Form
variable {f g : Form} {r r' : List Token}

theorem nullable_of_tokens {x : f.Tree} (h : f.tokens x = []) : f.nullable = true := by
  induction f with
  | empty => rfl
  | token kind => cases h
  | type =>
    obtain ⟨t, l, hx, -⟩ := x.head_tokens
    cases hx.symm.trans h
  | seq f g ihf ihg =>
    obtain ⟨hf, hg⟩ := List.append_eq_nil_iff.mp h
    rw [nullable, ihf hf, ihg hg, Bool.and_self]
  | alt f g ihf ihg =>
    cases x with
    | inl x => rw [nullable, ihf h, Bool.true_or]
    | inr y => rw [nullable, ihg h, Bool.or_true]
  | opt f _ => rfl
  | star f _ => rfl
  | listed f ih => exact ih (List.append_eq_nil_iff.mp h).1

theorem mem_head?_append {l l' : List Token} {t : Token} :
    t ∈ (l ++ l').head? ↔ t ∈ l.head? ∨ l = [] ∧ t ∈ l'.head? := by
  rw [List.head?_append, Option.mem_def, Option.or_eq_some_iff, List.head?_eq_none_iff]
  rfl

/-- Every token that starts a derivation is of a kind that its form starts with. -/
theorem kind_mem_firsts {x : f.Tree} {t : Token} (h : t ∈ (f.tokens x).head?) :
    t.kind ∈ f.firsts := by
  induction f with
  | empty => cases h
  | token kind =>
    cases h
    simp [firsts, x.2]
  | type =>
    obtain ⟨u, l, hx, hu⟩ := x.head_tokens
    simp only [tokens, hx] at h
    cases h
    exact hu
  | seq f g ihf ihg =>
    rw [firsts, List.mem_append]
    rcases mem_head?_append.mp h with h | ⟨hx, h⟩
    · exact .inl (ihf h)
    · rw [if_pos (nullable_of_tokens hx)]
      exact .inr (ihg h)
  | alt f g ihf ihg =>
    cases x with
    | inl x => exact List.mem_append_left _ (ihf h)
    | inr y => exact List.mem_append_right _ (ihg h)
  | opt f ih =>
    cases x with
    | none => cases h
    | some x => exact ih (by simpa [tokens] using h)
  | star f ih =>
    induction x with
    | nil => cases h
    | cons x xs ihxs =>
      rw [tokens, List.flatMap_cons] at h
      rcases mem_head?_append.mp h with h | ⟨-, h⟩
      · exact ih h
      · exact ihxs h
  | listed f ih =>
    obtain ⟨x, xs, comma⟩ := x
    rw [firsts, List.mem_append]
    rcases mem_head?_append.mp h with h | ⟨hx, h⟩
    · exact .inl (ih h)
    · rw [if_pos (nullable_of_tokens hx), List.mem_singleton]
      refine .inr ?_
      cases xs with
      | cons c xs =>
        cases h
        exact c.1.2
      | nil =>
        cases comma with
        | none => cases h
        | some c =>
          cases h
          exact c.2

theorem mem_afters_of_mem_after {x : f.Tree} {k : TokenKind} (h : k ∈ f.after x) :
    k ∈ f.afters := by
  induction f with
  | empty | token kind | type => cases h
  | seq f g ihf ihg =>
    simp only [after, List.mem_append] at h
    rw [afters, List.mem_append]
    rcases h with h | h
    · exact .inl (ihg h)
    · split at h
      next hnil =>
        rw [if_pos (nullable_of_tokens (List.isEmpty_iff.mp hnil))]
        exact .inr (ihf h)
      next => cases h
  | alt f g ihf ihg =>
    cases x with
    | inl x => exact List.mem_append_left _ (ihf h)
    | inr y => exact List.mem_append_right _ (ihg h)
  | opt f ih =>
    cases x with
    | none => exact List.mem_append_left _ h
    | some x => exact List.mem_append_right _ (ih h)
  | star f ih =>
    simp only [after, List.mem_append] at h
    rcases h with h | h
    · exact List.mem_append_left _ h
    · cases hlast : x.getLast? with
      | none => simp [hlast] at h
      | some y =>
        rw [hlast] at h
        exact List.mem_append_right _ (ih h)
  | listed f ih =>
    obtain ⟨x, xs, comma⟩ := x
    cases comma with
    | some c => exact List.mem_cons_of_mem _ (List.mem_append_left _ h)
    | none =>
      rcases List.mem_cons.mp h with rfl | h
      · exact List.mem_cons_self
      · exact List.mem_cons_of_mem _ (List.mem_append_right _ (ih h))

/-- A derivation that is followed by another one in a sequence ends there, if no token can do both,
go on with the one and start the other. -/
theorem Ends.append (h : apart f.afters g.firsts = true) {x : f.Tree} {y : g.Tree}
    (hend : (seq f g).Ends (x, y) r) : f.Ends x (g.tokens y ++ r) := by
  intro t ht hafter
  cases hy : g.tokens y with
  | nil =>
    refine hend t (by simpa [hy] using ht) ?_
    simp only [after, hy]
    exact List.mem_append_right _ hafter
  | cons u l =>
    have hfirst : t.kind ∈ g.firsts := by
      refine kind_mem_firsts (x := y) ?_
      rw [hy] at ht ⊢
      exact ht
    exact apart_iff.mp h _ (mem_afters_of_mem_after hafter) hfirst

theorem Ends.second {x : f.Tree} {y : g.Tree} (hend : (seq f g).Ends (x, y) r) : g.Ends y r :=
  fun t ht hafter => hend t ht (List.mem_append_left _ hafter)

theorem ends_of_nil (x : f.Tree) : f.Ends x [] := by
  intro t ht
  cases ht

theorem Ends.seq {x : f.Tree} {y : g.Tree} (hf : f.Ends x (g.tokens y ++ r)) (hg : g.Ends y r) :
    (seq f g).Ends (x, y) r := by
  intro t ht hafter
  rcases List.mem_append.mp hafter with hafter | hafter
  · exact hg t ht hafter
  · split at hafter
    next hnil =>
      rw [List.isEmpty_iff.mp hnil] at hf
      exact hf t ht hafter
    next => cases hafter

theorem exists_first (h : f.nullable = false) (x : f.Tree) :
    ∃ t l, f.tokens x = t :: l ∧ t.kind ∈ f.firsts := by
  cases hx : f.tokens x with
  | nil => exact absurd (nullable_of_tokens hx) (by simp [h])
  | cons t l => exact ⟨t, l, rfl, kind_mem_firsts (x := x) (by rw [hx]; rfl)⟩

theorem tokens_ne_of_differ (h : differ f g = true) (x : f.Tree) (y : g.Tree) :
    f.tokens x ++ r ≠ g.tokens y ++ r' := by
  fun_induction differ f g with
  | case1 f l g ih =>
    intro heq
    exact ih h x.2 y.2 (List.cons.inj heq).2
  | case2 k f l g hkl =>
    intro heq
    have hkind := congrArg Token.kind (List.cons.inj heq).1
    exact hkl (x.1.2.symm.trans (hkind.trans y.1.2))
  | case3 f g _ =>
    simp only [Bool.and_eq_true, Bool.not_eq_true'] at h
    obtain ⟨t, l, hx, ht⟩ := exists_first h.1.1 x
    obtain ⟨u, l', hy, hu⟩ := exists_first h.1.2 y
    rw [hx, hy]
    intro heq
    have hkind := congrArg Token.kind (List.cons.inj heq).1
    exact apart_iff.mp h.2 _ ht (hkind ▸ hu)

def Unambiguous (f : Form) : Prop :=
  ∀ ⦃x x' : f.Tree⦄ ⦃r r' : List Token⦄, f.Ends x r → f.Ends x' r' →
    f.tokens x ++ r = f.tokens x' ++ r' → x = x'

theorem Unambiguous.seq (hf : f.Unambiguous) (hg : g.Unambiguous)
    (h : apart f.afters g.firsts = true) : (seq f g).Unambiguous := by
  rintro ⟨x, y⟩ ⟨x', y'⟩ r r' hend hend' heq
  simp only [tokens, List.append_assoc] at heq
  obtain rfl := hf (hend.append h) (hend'.append h) heq
  obtain rfl := hg hend.second hend'.second (List.append_cancel_left heq)
  rfl

theorem Unambiguous.alt (hf : f.Unambiguous) (hg : g.Unambiguous) (h : differ f g = true) :
    (alt f g).Unambiguous := by
  rintro (x | y) (x' | y') r r' hend hend' heq
  · exact congrArg Sum.inl (hf hend hend' heq)
  · exact absurd heq (tokens_ne_of_differ h x y')
  · exact absurd heq.symm (tokens_ne_of_differ h x' y)
  · exact congrArg Sum.inr (hg hend hend' heq)

/-- What starts with a derivation of a form that takes a token starts with a kind of the form. -/
theorem not_ends_of_append (h : f.nullable = false) {x : f.Tree} {rest : List Token}
    (hends : ∀ t ∈ (f.tokens x ++ rest).head?, t.kind ∉ f.firsts) : False := by
  obtain ⟨t, l, hx, ht⟩ := exists_first h x
  rw [hx] at hends
  exact hends t rfl ht

theorem Unambiguous.opt (hf : f.Unambiguous) (h : f.nullable = false) : (opt f).Unambiguous := by
  rintro (_ | x) (_ | x') r r' hend hend' heq
  · rfl
  · rw [tokens_none, tokens_some, List.nil_append] at heq
    exact (not_ends_of_append h (heq ▸ hend)).elim
  · rw [tokens_none, tokens_some, List.nil_append] at heq
    exact (not_ends_of_append h (heq ▸ hend')).elim
  · rw [tokens_some, tokens_some] at heq
    exact congrArg some (hf hend hend' heq)

theorem ends_nil_iff : (star f).Ends [] r ↔ ∀ t ∈ r.head?, t.kind ∉ f.firsts := by
  simp [Ends, after]

theorem mem_after_cons {x : f.Tree} {xs : List f.Tree} {k : TokenKind} (h : k ∈ (star f).after xs) :
    k ∈ (star f).after (x :: xs) := by
  cases xs with
  | nil => exact List.mem_append_left _ (by simpa [after] using h)
  | cons y ys => simpa [after, List.getLast?_cons_cons] using h

theorem Ends.tail {x : f.Tree} {xs : List f.Tree} (hend : (star f).Ends (x :: xs) r) :
    (star f).Ends xs r :=
  fun t ht hafter => hend t ht (mem_after_cons hafter)

theorem Ends.head (h : f.nullable = false) (hafter : apart f.afters f.firsts = true) {x : f.Tree}
    {xs : List f.Tree} (hend : (star f).Ends (x :: xs) r) : f.Ends x ((star f).tokens xs ++ r) := by
  refine Ends.append (g := star f) hafter fun t ht hk => hend t ht ?_
  rcases List.mem_append.mp hk with hk | hk
  · exact mem_after_cons hk
  · cases xs with
    | nil => exact List.mem_append_right _ (by simpa [after] using hk)
    | cons y ys =>
      obtain ⟨u, l, hy, -⟩ := exists_first h y
      simp [hy] at hk

theorem Ends.cons {x : f.Tree} {xs : List f.Tree} (hx : f.Ends x ((star f).tokens xs ++ r))
    (hxs : (star f).Ends xs r) : (star f).Ends (x :: xs) r := by
  intro t ht hafter
  cases xs with
  | nil =>
    rcases List.mem_append.mp hafter with hafter | hafter
    · exact ends_nil_iff.mp hxs t ht hafter
    · exact hx t ht hafter
  | cons y ys => exact hxs t ht (by simpa [after, List.getLast?_cons_cons] using hafter)

theorem length_le_tokens (h : f.nullable = false) (xs : List f.Tree) :
    xs.length ≤ ((star f).tokens xs).length := by
  induction xs with
  | nil => exact Nat.zero_le _
  | cons x xs ih =>
    obtain ⟨t, l, hx, -⟩ := exists_first h x
    rw [tokens_cons, hx]
    simp only [List.length_cons, List.length_append]
    omega

theorem Unambiguous.star (hf : f.Unambiguous) (h : f.nullable = false)
    (hafter : apart f.afters f.firsts = true) : (star f).Unambiguous := by
  intro xs
  induction xs with
  | nil =>
    rintro (_ | ⟨x', xs'⟩) r r' hend hend' heq
    · rfl
    · rw [tokens_nil, tokens_cons, List.nil_append, List.append_assoc] at heq
      exact (not_ends_of_append h (ends_nil_iff.mp (heq ▸ hend))).elim
  | cons x xs ih =>
    rintro (_ | ⟨x', xs'⟩) r r' hend hend' heq
    · rw [tokens_nil, tokens_cons, List.nil_append, List.append_assoc] at heq
      exact (not_ends_of_append h (ends_nil_iff.mp (heq ▸ hend'))).elim
    · rw [tokens_cons, tokens_cons, List.append_assoc, List.append_assoc] at heq
      obtain rfl := hf (hend.head h hafter) (hend'.head h hafter) heq
      rw [ih hend.tail hend'.tail (List.append_cancel_left heq)]

section
variable {x y : f.Tree} {xs : List (Tok (.sign .comma) × f.Tree)} {c : Tok (.sign .comma)}
  {last : Option (Tok (.sign .comma))}

theorem tokens_listed_cons : (listed f).tokens (x, (c, y) :: xs, last) =
    f.tokens x ++ c.1 :: (listed f).tokens (y, xs, last) := by
  simp [tokens]

theorem length_le_tokens_listed : xs.length ≤ ((listed f).tokens (x, xs, last)).length := by
  induction xs generalizing x with
  | nil => exact Nat.zero_le _
  | cons c xs ih =>
    have hrest := ih (x := c.2)
    rw [tokens_listed_cons]
    simp only [List.length_cons, List.length_append]
    omega

theorem Ends.listed_tail (hend : (listed f).Ends (x, (c, y) :: xs, last) r) :
    (listed f).Ends (y, xs, last) r := by
  intro t ht hafter
  refine hend t ht ?_
  cases last with
  | some c => exact hafter
  | none =>
    simp only [after, List.getLast?_cons, Option.map_some, Option.getD_some] at hafter ⊢
    cases hlast : xs.getLast? <;> simpa [hlast] using hafter

theorem Ends.listed_head (h : apart f.afters [.sign .comma] = true)
    (hend : (listed f).Ends (x, xs, last) r) :
    f.Ends x (xs.flatMap (fun c => c.1.1 :: f.tokens c.2) ++
      (last.toList.map Subtype.val ++ r)) := by
  have hcomma : ∀ c : Tok (.sign .comma), c.1.kind ∉ f.after x := fun c hc =>
    apart_iff.mp h _ (mem_afters_of_mem_after hc) (by simp [c.2])
  intro t ht
  cases xs with
  | cons c xs =>
    cases ht
    exact hcomma c.1
  | nil =>
    cases last with
    | some c =>
      cases ht
      exact hcomma c
    | none => exact fun hafter => hend t ht (List.mem_cons_of_mem _ hafter)

/-- What follows the end of a list is not one more element. -/
theorem Ends.ne_of_listed (h : f.nullable = false) (hend : (listed f).Ends (x, [], last) r)
    (rest : List Token) : last.toList.map Subtype.val ++ r ≠ c.1 :: (f.tokens y ++ rest) := by
  intro heq
  cases last with
  | none =>
    rw [Option.toList_none, List.map_nil, List.nil_append] at heq
    subst heq
    exact hend _ rfl (by simp [after, c.2])
  | some d =>
    obtain rfl : r = f.tokens y ++ rest := (List.cons.inj heq).2
    exact not_ends_of_append h hend

end

theorem Unambiguous.listed (hf : f.Unambiguous) (h : f.nullable = false)
    (hcomma : apart f.afters [.sign .comma] = true) : (listed f).Unambiguous := by
  rintro ⟨x, xs, last⟩ ⟨x', xs', last'⟩ r r' hend hend' heq
  induction xs generalizing x x' xs' with
  | nil =>
    simp only [tokens, List.append_assoc] at heq
    obtain rfl := hf (hend.listed_head hcomma) (hend'.listed_head hcomma) heq
    replace heq := List.append_cancel_left heq
    cases xs' with
    | cons c' xs' =>
      exact absurd (by simpa using heq) (hend.ne_of_listed (c := c'.1) (y := c'.2) h _)
    | nil =>
      cases last with
      | none =>
        cases last' with
        | none => rfl
        | some c' =>
          cases heq
          exact absurd (by simp [after, c'.2]) (hend _ rfl)
      | some c =>
        cases last' with
        | none =>
          cases heq
          exact absurd (by simp [after, c.2]) (hend' _ rfl)
        | some c' => rw [Subtype.ext (List.cons.inj heq).1]
  | cons c xs ih =>
    have hrest := heq
    simp only [tokens, List.append_assoc] at hrest
    obtain rfl := hf (hend.listed_head hcomma) (hend'.listed_head hcomma) hrest
    replace hrest := List.append_cancel_left hrest
    cases xs' with
    | nil => exact absurd (by simpa using hrest.symm) (hend'.ne_of_listed (c := c.1) (y := c.2) h _)
    | cons c' xs' =>
      rw [tokens_listed_cons, tokens_listed_cons, List.append_assoc, List.append_assoc] at heq
      obtain ⟨hc, htail⟩ := List.cons.inj (List.append_cancel_left heq)
      have htrees := ih _ _ _ hend.listed_tail hend'.listed_tail htail
      obtain ⟨hy, rfl, rfl⟩ : c.2 = c'.2 ∧ xs = xs' ∧ last = last' := by simpa using htrees
      rw [Prod.ext (Subtype.ext hc) hy]

theorem unambiguous_of_predictive (h : f.predictive = true) : f.Unambiguous := by
  induction f with
  | empty => exact fun _ _ _ _ _ _ _ => rfl
  | token kind => exact fun _ _ _ _ _ _ heq => Subtype.ext (List.cons.inj heq).1
  | type => exact fun x x' _ _ _ _ heq => (x.eq_of_append heq).1
  | seq f g ihf ihg =>
    simp only [predictive, Bool.and_eq_true] at h
    exact (ihf h.1.1).seq (ihg h.1.2) h.2
  | alt f g ihf ihg =>
    simp only [predictive, Bool.and_eq_true] at h
    exact (ihf h.1.1).alt (ihg h.1.2) h.2
  | opt f ih =>
    simp only [predictive, Bool.and_eq_true, Bool.not_eq_true'] at h
    exact (ih h.1).opt h.2
  | star f ih =>
    simp only [predictive, Bool.and_eq_true, Bool.not_eq_true'] at h
    exact (ih h.1.1).star h.1.2 h.2
  | listed f ih =>
    simp only [predictive, Bool.and_eq_true, Bool.not_eq_true'] at h
    exact (ih h.1.1).listed h.1.2 h.2

end Form
end Ownership.Listing
