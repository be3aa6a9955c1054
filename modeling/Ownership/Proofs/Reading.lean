import Ownership.Listing.Parser
import Ownership.Proofs.Stopping
import Ownership.Proofs.Syntax

/-! # Parsers that read a form

A parser reads a form if it takes exactly the derivations of the form off the front of its tokens,
where a derivation must end before the tokens that are left, and if it fails where the form stops.
Each way to put parsers together has its operator on forms.
-/
namespace Ownership.Listing.Parser
open Form
variable {α β : Type} {p : Parser α} {f g : Form} {shape : f.Tree → α} {ts r rest : List Token}

theorem run_bind_of_ok {q : α → Parser β} {a : α} (h : p.run ts = .ok (a, r)) :
    (p >>= q).run ts = (q a).run r := by
  rw [StateT.run_bind, h]
  rfl

theorem exists_of_run_bind {q : α → Parser β} {b : β} (h : (p >>= q).run ts = .ok (b, r)) :
    ∃ a us, p.run ts = .ok (a, us) ∧ (q a).run us = .ok (b, r) := by
  rw [StateT.run_bind] at h
  cases hp : p.run ts with
  | error e =>
    rw [hp] at h
    cases h
  | ok x =>
    rw [hp] at h
    exact ⟨x.1, x.2, rfl, h⟩

theorem cases_of_bind_error {q : α → Parser β} (h : (p >>= q).run ts = .error rest) :
    p.run ts = .error rest ∨ ∃ a us, p.run ts = .ok (a, us) ∧ (q a).run us = .error rest := by
  rw [StateT.run_bind] at h
  cases hp : p.run ts with
  | error e =>
    rw [hp] at h
    cases h
    exact .inl rfl
  | ok x =>
    rw [hp] at h
    exact .inr ⟨x.1, x.2, rfl, h⟩

theorem run_take {k : TokenKind} {t : Token} (h : t.kind = k) :
    (take k).run (t :: r) = .ok (t, r) := by
  change (if t.kind = k then _ else _ : Parser Token).run (t :: r) = _
  rw [if_pos h]
  rfl

theorem of_run_take {k : TokenKind} {t : Token} (h : (take k).run ts = .ok (t, r)) :
    t.kind = k ∧ ts = t :: r := by
  cases ts with
  | nil => cases h
  | cons u us =>
    change (if u.kind = k then _ else _ : Parser Token).run (u :: us) = _ at h
    split at h
    next hk =>
      cases h
      exact ⟨hk, rfl⟩
    next => cases h

theorem of_take_error {k : TokenKind} (h : (take k).run ts = .error rest) :
    rest = ts ∧ ∀ t ∈ ts.head?, t.kind ≠ k := by
  cases ts with
  | nil =>
    cases h
    exact ⟨rfl, fun t ht => by cases ht⟩
  | cons u us =>
    change (if u.kind = k then _ else _ : Parser Token).run (u :: us) = _ at h
    split at h
    next => cases h
    next hk =>
      cases h
      refine ⟨rfl, fun t ht => ?_⟩
      cases ht
      exact hk

/-- A parser gives what the derivations of a form say, and takes their tokens. It fails where the
form stops. -/
structure Reads (p : Parser α) (f : Form) (shape : f.Tree → α) : Prop where
  run_tokens : ∀ x r, f.Ends x r → p.run (f.tokens x ++ r) = .ok (shape x, r)
  of_run : ∀ ts a r, p.run ts = .ok (a, r) → ∃ x, shape x = a ∧ f.tokens x ++ r = ts ∧ f.Ends x r
  of_error : ∀ ts rest, p.run ts = .error rest → f.Stops ts rest

theorem Reads.delimited (h : p.Reads f shape) : f.Delimited := by
  intro x x' r r' hx hx' heq
  have hrun := (h.run_tokens x r hx).symm.trans (heq ▸ h.run_tokens x' r' hx')
  exact (Prod.mk.inj (Except.ok.inj hrun)).2

theorem reads_pure (a : α) : (pure a : Parser α).Reads empty fun _ => a where
  run_tokens _ _ _ := rfl
  of_run ts a r h := by
    cases h
    exact ⟨(), rfl, rfl, fun _ _ => List.not_mem_nil⟩
  of_error ts rest h := by cases h

theorem reads_take (k : TokenKind) : (take k).Reads (token k) Subtype.val where
  run_tokens x r _ := run_take x.2
  of_run ts t r h := by
    obtain ⟨hk, rfl⟩ := of_run_take h
    exact ⟨⟨t, hk⟩, rfl, rfl, fun _ _ => List.not_mem_nil⟩
  of_error ts rest h := by
    obtain ⟨rfl, hk⟩ := of_take_error h
    exact stops_of_firsts rfl fun t ht => by simpa [firsts] using hk t ht

theorem Reads.congr {shape' : f.Tree → α} (h : p.Reads f shape) (heq : ∀ x, shape x = shape' x) :
    p.Reads f shape' := by
  rwa [← funext heq]

/-- A sequence stops where its first part does, or behind that where the second one does. -/
theorem Reads.stops_bind {q : α → Parser β} (hp : p.Reads f shape)
    (h : apart f.afters g.firsts = true) (hrun : (p >>= q).run ts = .error rest)
    (hq : ∀ x us, f.tokens x ++ us = ts → (q (shape x)).run us = .error rest → g.Stops us rest) :
    (seq f g).Stops ts rest := by
  rcases cases_of_bind_error hrun with hpa | ⟨a, us, hpa, hqa⟩
  · exact (hp.of_error _ _ hpa).seq_left h
  · obtain ⟨x, rfl, rfl, hx⟩ := hp.of_run _ _ _ hpa
    exact (hq x us rfl hqa).seq_right hp.delimited h hx

theorem Reads.bind {q : α → Parser β} {shape' : (seq f g).Tree → β} (hp : p.Reads f shape)
    (h : apart f.afters g.firsts = true) (hq : ∀ x, (q (shape x)).Reads g fun y => shape' (x, y)) :
    (p >>= q).Reads (seq f g) shape' where
  run_tokens := by
    rintro ⟨x, y⟩ r hend
    rw [tokens_seq, List.append_assoc, run_bind_of_ok (hp.run_tokens x _ (hend.append h))]
    exact (hq x).run_tokens y r hend.second
  of_run ts b r hrun := by
    obtain ⟨a, us, hpa, hqa⟩ := exists_of_run_bind hrun
    obtain ⟨x, rfl, rfl, hx⟩ := hp.of_run _ _ _ hpa
    obtain ⟨y, rfl, rfl, hy⟩ := (hq x).of_run _ _ _ hqa
    exact ⟨(x, y), rfl, List.append_assoc .., hx.seq hy⟩
  of_error ts rest hrun := hp.stops_bind h hrun fun x us _ => (hq x).of_error us rest

/-- Anything may follow a form that nothing goes on with. -/
theorem Reads.next {q : α → Parser β} {shape' : (seq f g).Tree → β} (hp : p.Reads f shape)
    (h : f.afters = []) (hq : ∀ x, (q (shape x)).Reads g fun y => shape' (x, y)) :
    (p >>= q).Reads (seq f g) shape' :=
  hp.bind (by rw [h]; rfl) hq

theorem Reads.map (h : p.Reads f shape) (m : α → β) : (m <$> p).Reads f fun x => m (shape x) where
  run_tokens x r hend := by
    rw [StateT.run_map, h.run_tokens x r hend]
    rfl
  of_run ts b r hrun := by
    rw [map_eq_pure_bind] at hrun
    obtain ⟨a, us, hpa, hb⟩ := exists_of_run_bind hrun
    cases hb
    obtain ⟨x, rfl, rfl, hx⟩ := h.of_run _ _ _ hpa
    exact ⟨x, rfl, rfl, hx⟩
  of_error ts rest hrun := by
    rw [map_eq_pure_bind] at hrun
    rcases cases_of_bind_error hrun with hpa | ⟨a, us, -, hb⟩
    · exact h.of_error _ _ hpa
    · cases hb

theorem Reads.thenPure {q : α → Parser β} {shape' : f.Tree → β} (h : p.Reads f shape)
    (hq : ∀ x, q (shape x) = pure (shape' x)) : (p >>= q).Reads f shape' where
  run_tokens x r hend := by
    rw [run_bind_of_ok (h.run_tokens x r hend), hq]
    rfl
  of_run ts b r hrun := by
    obtain ⟨a, us, ha, hb⟩ := exists_of_run_bind hrun
    obtain ⟨x, rfl, rfl, hx⟩ := h.of_run _ _ _ ha
    rw [hq] at hb
    cases hb
    exact ⟨x, rfl, rfl, hx⟩
  of_error ts rest hrun := by
    rcases cases_of_bind_error hrun with ha | ⟨a, us, ha, hb⟩
    · exact h.of_error _ _ ha
    · obtain ⟨x, rfl, -, -⟩ := h.of_run _ _ _ ha
      rw [hq] at hb
      cases hb

/-- Nothing is read at the end. -/
theorem Reads.close (h : p.Reads f shape) : p.Reads (seq f empty) fun x => shape x.1 where
  run_tokens x r hend := by
    have hx : f.tokens x.1 ++ r = (seq f empty).tokens x ++ r := by simp [tokens]
    exact hx ▸ h.run_tokens x.1 r hend
  of_run ts a r hrun := by
    obtain ⟨x, rfl, rfl, hx⟩ := h.of_run _ _ _ hrun
    exact ⟨(x, ()), rfl, by simp [tokens], hx⟩
  of_error ts rest hrun :=
    (h.of_error _ _ hrun).seq_left (apart_iff.mpr fun _ _ => List.not_mem_nil)

theorem reads_discard (k : TokenKind) : (discard (take k) : Parser Unit).Reads (token k) fun _ =>
    () := (reads_take k).map _

theorem reads_keyword (k : Keyword) : (keyword k).Reads (Syntax.keyword k) fun _ => () :=
  reads_discard _

theorem reads_sign (s : Sign) : (sign s).Reads (Syntax.sign s) fun _ => () := reads_discard _

theorem reads_word : word.Reads Syntax.name Tok.word :=
  (reads_take _).map fun t => (⟨t.text, t.span⟩ : Word)

theorem reads_name : name.Reads Syntax.name Tok.text := (reads_take _).map _

theorem reads_lifetime : lifetime.Reads Syntax.lifetime Tok.text := (reads_take _).map _

theorem run_next_bind {q : Option TokenKind → Parser α} :
    (next? >>= q).run ts = (q (ts.head?.map Token.kind)).run ts := rfl

theorem run_nextIs_bind {k : TokenKind} {q : Bool → Parser α} :
    (nextIs k >>= q).run ts = (q (ts.head?.map Token.kind == some k)).run ts := rfl

theorem head_kind_of_firsts {k : TokenKind} (hfirst : ∀ l ∈ f.firsts, l = k)
    (hnull : f.nullable = false) (x : f.Tree) (r : List Token) :
    (f.tokens x ++ r).head?.map Token.kind = some k := by
  obtain ⟨t, l, hx, ht⟩ := exists_first hnull x
  rw [hx]
  exact congrArg some (hfirst _ ht)

theorem nextIs_of_kind {k l : TokenKind} {t : Token} (ht : t.kind = l) :
    ((t :: r).head?.map Token.kind == some k) = (l == k) := by
  rw [List.head?_cons, Option.map_some, ht]
  rfl

theorem kind_of_head {k : TokenKind} {t : Token} (h : ts.head?.map Token.kind = some k)
    (ht : t ∈ ts.head?) : t.kind = k := by
  rw [ht] at h
  exact Option.some.inj h

theorem kind_of_nextIs {k : TokenKind} {t : Token} (h : (ts.head?.map Token.kind == some k) = true)
    (ht : t ∈ ts.head?) : t.kind = k :=
  kind_of_head (beq_iff_eq.mp h) ht

theorem kind_ne_of_nextIs {k : TokenKind} {t : Token}
    (h : ¬(ts.head?.map Token.kind == some k) = true) (ht : t ∈ ts.head?) : t.kind ≠ k := by
  rintro rfl
  rw [ht] at h
  exact h (beq_self_eq_true _)

theorem nextIs_of_firsts {k : TokenKind} (h : k ∉ f.firsts) (hnull : f.nullable = false)
    (x : f.Tree) : ((f.tokens x ++ r).head?.map Token.kind == some k) = false := by
  obtain ⟨t, l, hx, ht⟩ := exists_first hnull x
  rw [hx, beq_eq_false_iff_ne]
  rintro ⟨⟩
  exact h ht

theorem ends_none_iff {k : TokenKind} (hfirst : f.firsts = [k]) :
    (opt f).Ends none r ↔ (r.head?.map Token.kind == some k) = false := by
  cases r with
  | nil => simp [Ends]
  | cons t r => simp [Ends, after, hfirst]

/-- A parser that the next token calls for, or else a value. -/
theorem Reads.ifNext {k : TokenKind} (h : p.Reads f shape) (b : α) (hfirst : f.firsts = [k])
    (hnull : f.nullable = false) :
    (do if ← nextIs k then p else pure b : Parser α).Reads (opt f) fun x => x.elim b shape where
  run_tokens := by
    rintro (_ | x) r hend
    · rw [run_nextIs_bind, tokens_none, List.nil_append, (ends_none_iff hfirst).mp hend]
      rfl
    · rw [run_nextIs_bind, tokens_some, head_kind_of_firsts (k := k) (by simp [hfirst]) hnull,
        beq_self_eq_true]
      exact h.run_tokens x r hend
  of_run ts a r hrun := by
    rw [run_nextIs_bind] at hrun
    split at hrun
    next hk =>
      obtain ⟨x, rfl, rfl, hx⟩ := h.of_run _ _ _ hrun
      exact ⟨some x, rfl, by rw [tokens_some], hx⟩
    next hk =>
      cases hrun
      exact ⟨none, rfl, rfl, (ends_none_iff hfirst).mpr (Bool.eq_false_iff.mpr hk)⟩
  of_error ts rest hrun := by
    rw [run_nextIs_bind] at hrun
    split at hrun
    next hk => exact (h.of_error _ _ hrun).inSome fun t ht => by simp [hfirst, kind_of_nextIs hk ht]
    next => cases hrun

/-- A parser that the next token calls for, or else another one. -/
theorem Reads.ifNextElse {k : TokenKind} {q : Parser α} {shape' : (alt f g).Tree → α}
    (hp : p.Reads f fun x => shape' (.inl x)) (hq : q.Reads g fun y => shape' (.inr y))
    (hfirst : f.firsts = [k]) (hnull : f.nullable = false)
    (hfirst' : k ∉ g.firsts) (hnull' : g.nullable = false) :
    (do if ← nextIs k then p else q : Parser α).Reads (alt f g) shape' where
  run_tokens := by
    rintro (x | y) r hend
    · rw [run_nextIs_bind, tokens, head_kind_of_firsts (k := k) (by simp [hfirst]) hnull,
        beq_self_eq_true]
      exact hp.run_tokens x r hend
    · rw [run_nextIs_bind, tokens, nextIs_of_firsts hfirst' hnull']
      exact hq.run_tokens y r hend
  of_run ts a r hrun := by
    rw [run_nextIs_bind] at hrun
    split at hrun
    next =>
      obtain ⟨x, hx⟩ := hp.of_run _ _ _ hrun
      exact ⟨.inl x, hx⟩
    next =>
      obtain ⟨y, hy⟩ := hq.of_run _ _ _ hrun
      exact ⟨.inr y, hy⟩
  of_error ts rest hrun := by
    rw [run_nextIs_bind] at hrun
    split at hrun
    next hk =>
      exact (hp.of_error _ _ hrun).inl_of_firsts hnull' fun t ht => kind_of_nextIs hk ht ▸ hfirst'
    next hk =>
      exact (hq.of_error _ _ hrun).inr_of_firsts hnull fun t ht => by
        simpa [hfirst] using kind_ne_of_nextIs hk ht

theorem Reads.optional {k : TokenKind} (h : p.Reads f shape) (hfirst : f.firsts = [k])
    (hnull : f.nullable = false) : (optional k p).Reads (opt f) (Option.map shape) :=
  ((h.map some).ifNext none hfirst hnull).congr fun x => by cases x <;> rfl

theorem reads_accept (k : TokenKind) : (accept k).Reads (opt (token k)) Option.isSome :=
  have htrue : (do discard (take k); return true : Parser Bool).Reads (token k) fun _ => true :=
    (reads_discard k).thenPure fun _ => rfl
  (htrue.ifNext false rfl rfl).congr fun x => by cases x <;> rfl

section Repetition

theorem run_manyUpTo (hp : p.Reads f shape) (hnull : f.nullable = false)
    (hafter : apart f.afters f.firsts = true) (starts : TokenKind → Bool)
    (hstarts : ∀ k ∈ f.firsts, starts k = true) {xs : List f.Tree} {n : Nat} (hn : xs.length ≤ n)
    (hend : (star f).Ends xs r) (hr : ∀ t ∈ r.head?, starts t.kind = false) :
    (manyUpTo starts p n).run ((star f).tokens xs ++ r) = .ok (xs.map shape, r) := by
  induction xs generalizing n with
  | nil =>
    cases n with
    | zero => rfl
    | succ n =>
      rw [manyUpTo, run_next_bind, if_neg]
      · rfl
      · cases r with
        | nil => exact Bool.false_ne_true
        | cons t r => simpa using hr t rfl
  | cons x xs ih =>
    cases n with
    | zero => cases hn
    | succ n =>
      obtain ⟨t, l, hx, ht⟩ := exists_first hnull x
      have hstart : (((star f).tokens (x :: xs) ++ r).head?.map Token.kind).any starts = true := by
        rw [tokens_cons, hx]
        exact hstarts _ ht
      rw [manyUpTo, run_next_bind, if_pos hstart, tokens_cons, List.append_assoc,
        run_bind_of_ok (hp.run_tokens x _ (hend.head hnull hafter)),
        run_bind_of_ok (ih (Nat.le_of_succ_le_succ hn) hend.tail)]
      rfl

theorem of_run_manyUpTo {starts : TokenKind → Bool} (hp : p.Reads f shape)
    (hnull : f.nullable = false) (hstarts : ∀ k ∈ f.firsts, starts k = true) {n : Nat}
    (hn : ts.length ≤ n) {l : List α} (hrun : (manyUpTo starts p n).run ts = .ok (l, r)) :
    ∃ xs : List f.Tree, xs.map shape = l ∧ (star f).tokens xs ++ r = ts ∧ (star f).Ends xs r ∧
      ∀ t ∈ r.head?, starts t.kind = false := by
  induction n generalizing ts l with
  | zero =>
    obtain rfl := List.length_eq_zero_iff.mp (Nat.le_zero.mp hn)
    cases hrun
    exact ⟨[], rfl, rfl, ends_of_nil _, by simp⟩
  | succ n ih =>
    rw [manyUpTo, run_next_bind] at hrun
    split at hrun
    next =>
      obtain ⟨a, us, ha, hrest⟩ := exists_of_run_bind hrun
      obtain ⟨as, vs, has, hpure⟩ := exists_of_run_bind hrest
      cases hpure
      obtain ⟨x, rfl, rfl, hx⟩ := hp.of_run _ _ _ ha
      obtain ⟨t, l, hxt, -⟩ := exists_first hnull x
      have hlength : us.length ≤ n := by
        rw [hxt] at hn
        simp only [List.cons_append, List.length_cons, List.length_append] at hn
        omega
      obtain ⟨xs, rfl, rfl, hxs, hr⟩ := ih hlength has
      exact ⟨x :: xs, rfl, by rw [tokens_cons, List.append_assoc], hx.cons hxs, hr⟩
    next hstart =>
      cases hrun
      have hr : ∀ t ∈ r.head?, starts t.kind = false := by
        intro t ht
        rw [ht] at hstart
        exact Bool.eq_false_iff.mpr hstart
      exact ⟨[], rfl, rfl, ends_nil_iff.mpr fun t ht hk =>
        absurd (hstarts _ hk) (by simp [hr t ht]), hr⟩

/-- A repetition fails in one of its rounds. It may be told to take up a round with any token, so
what may follow it are the tokens that no round is taken up with. -/
theorem of_manyUpTo_error {starts : TokenKind → Bool} (hp : p.Reads f shape)
    (hnull : f.nullable = false) (hafter : apart f.afters f.firsts = true) {n : Nat}
    (hrun : (manyUpTo starts p n).run ts = .error rest) :
    ∃ taken, taken ++ rest = ts ∧ (∃ xs, taken <+: (star f).tokens xs) ∧
      ∀ t ∈ rest.head?, ∀ xs r us, (star f).Ends xs r →
      (∀ u ∈ r.head?, starts u.kind = false) → (star f).tokens xs ++ r ≠ taken ++ t :: us := by
  induction n generalizing ts with
  | zero => cases hrun
  | succ n ih =>
    rw [manyUpTo, run_next_bind] at hrun
    split at hrun
    next hstart =>
      -- Nothing else follows no round at all, since the next token takes one up.
      have hnone : ∀ r : List Token, r.head? = ts.head? → r ≠ [] → ¬∀ u ∈ r.head?,
          starts u.kind = false := by
        intro r hhead hne hr
        obtain ⟨u, l, rfl⟩ := List.exists_cons_of_ne_nil hne
        rw [← hhead] at hstart
        exact absurd hstart (by simp [hr u rfl])
      rcases cases_of_bind_error hrun with ha | ⟨a, us, ha, hrest⟩
      · obtain ⟨taken, rfl, ⟨x, hx⟩, hrefuse⟩ := hp.of_error _ _ ha
        refine ⟨taken, rfl, ⟨[x], by simpa using hx⟩, ?_⟩
        rintro t ht (_ | ⟨x', xs'⟩) r us hend hr heq
        · rw [tokens_nil, List.nil_append] at heq
          exact hnone r (heq ▸ head?_append_of_mem ht) (by simp [heq]) hr
        · rw [tokens_cons, List.append_assoc] at heq
          exact hrefuse t ht x' _ us (hend.head hnull hafter) heq
      · obtain ⟨x, rfl, rfl, hx⟩ := hp.of_run _ _ _ ha
        rcases cases_of_bind_error hrest with has | ⟨as, vs, -, hpure⟩
        · obtain ⟨taken, rfl, ⟨xs, hxs⟩, hrefuse⟩ := ih has
          refine ⟨f.tokens x ++ taken, List.append_assoc .., ⟨x :: xs, ?_⟩, ?_⟩
          · rw [tokens_cons]
            exact (List.prefix_append_right_inj _).mpr hxs
          rintro t ht (_ | ⟨x', xs'⟩) r us hend hr heq
          · rw [tokens_nil, List.nil_append] at heq
            refine hnone r ?_ (by simp [heq]) hr
            rw [heq, head?_append_of_mem ht, List.append_assoc]
          · rw [tokens_cons, List.append_assoc, List.append_assoc] at heq
            have hx' : f.Ends x (taken ++ t :: us) := hx.congr_head (head?_append_of_mem ht)
            exact hrefuse t ht xs' r us hend.tail hr (hp.delimited (hend.head hnull hafter) hx' heq)
        · cases hpure
    next => cases hrun

theorem starts_eq_false {starts : TokenKind → Bool} (hstarts : ∀ k, starts k = true ↔ k ∈ f.firsts)
    {xs : List f.Tree} (hend : (star f).Ends xs r) :
    ∀ t ∈ r.head?, starts t.kind = false := fun t ht =>
  Bool.eq_false_iff.mpr fun hk => hend t ht (List.mem_append_left _ ((hstarts _).mp hk))

theorem Reads.many (hp : p.Reads f shape) (starts : TokenKind → Bool)
    (hstarts : ∀ k, starts k = true ↔ k ∈ f.firsts) (hafter : apart f.afters f.firsts = true)
    (hnull : f.nullable = false) :
    (many starts p).Reads (star f) (List.map shape) where
  run_tokens xs r hend := by
    refine run_manyUpTo hp hnull hafter starts (fun k => (hstarts k).mpr) ?_ hend
      (starts_eq_false hstarts hend)
    rw [List.length_append]
    exact Nat.le_trans (length_le_tokens hnull xs) (Nat.le_add_right ..)
  of_run ts l r hrun := by
    obtain ⟨xs, hl, hts, hend, -⟩ :=
      of_run_manyUpTo hp hnull (fun k => (hstarts k).mpr) (Nat.le_refl _) hrun
    exact ⟨xs, hl, hts, hend⟩
  of_error ts rest hrun := by
    obtain ⟨taken, hts, hxs, hrefuse⟩ := of_manyUpTo_error hp hnull hafter hrun
    exact ⟨taken, hts, hxs, fun t ht xs r us hend =>
      hrefuse t ht xs r us hend (starts_eq_false hstarts hend)⟩

theorem Reads.separated {s : Sign} (hp : p.Reads f shape) (hafter : apart f.afters [.sign s] = true)
    (hnull : f.nullable = false) :
    (separated s p).Reads (Syntax.separatedBy s f) fun x => (Syntax.elements x).map shape := by
  have hpair : (do sign s; p : Parser α).Reads (row [Syntax.sign s, f]) fun x => shape x.2.1 :=
    (reads_sign s).next rfl fun _ => hp.close
  have hmany := hpair.many (· == .sign s) (by simp [firsts, nullable])
    (by simpa [firsts, afters, nullable, hnull] using hafter) rfl
  have hlist :
      ∀ x, (do return shape x :: (← Parser.many (· == .sign s) do sign s; p) :
        Parser (List α)).Reads
      (star (row [Syntax.sign s, f])) fun y => shape x :: y.map fun z => shape z.2.1 := fun x =>
        hmany.thenPure fun _ => rfl
  exact hp.bind hafter fun x => (hlist x).close.congr fun y => by simp [Syntax.elements]

end Repetition

theorem spanBetween_append (l r : List Token) : spanBetween (l ++ r) r = spanOf l := by
  cases l with
  | nil => cases r <;> simp [spanBetween, spanOf]
  | cons t l =>
    have hlength : ((t :: l) ++ r).length - r.length = (t :: l).length := by
      rw [List.length_append]
      omega
    rw [spanBetween, hlength, List.take_left]
    rfl

theorem run_get_bind {q : List Token → Parser α} :
    (get >>= q : Parser α).run ts = (q ts).run ts := rfl

theorem Reads.spanned (hp : p.Reads f shape) : (spanned p).Reads f fun x =>
    (shape x, spanOf (f.tokens x)) where
      run_tokens x r hend := by
        rw [Parser.spanned, run_get_bind, run_bind_of_ok (hp.run_tokens x r hend), run_get_bind,
          spanBetween_append]
        rfl
      of_run ts a r hrun := by
        rw [Parser.spanned, run_get_bind] at hrun
        obtain ⟨a, us, ha, hpure⟩ := exists_of_run_bind hrun
        cases hpure
        obtain ⟨x, rfl, rfl, hx⟩ := hp.of_run _ _ _ ha
        exact ⟨x, by rw [spanBetween_append], rfl, hx⟩
      of_error ts rest hrun := by
        rw [Parser.spanned, run_get_bind] at hrun
        rcases cases_of_bind_error hrun with ha | ⟨a, us, -, hpure⟩
        · exact hp.of_error _ _ ha
        · cases hpure

/-- A parser reads a form wherever a token of a kind stands behind it. Where that token does not
follow, the form stops together with it. -/
structure ReadsBefore (k : TokenKind) (p : Parser α) (f : Form) (shape : f.Tree → α) : Prop where
  run_tokens : ∀ x t r, t.kind = k → p.run (f.tokens x ++ t :: r) = .ok (shape x, t :: r)
  of_run : ∀ ts a t r, t.kind = k → p.run ts = .ok (a, t :: r) → ∃ x, shape x = a ∧
    f.tokens x ++ t :: r = ts
  of_error : ∀ ts rest, (do let a ← p; discard (take k); return a : Parser α).run ts = .error rest →
    (row [f, token k]).Stops ts rest

theorem run_discard_of_nextIs {k : TokenKind} (h : (ts.head?.map Token.kind == some k) = true) :
    (discard (take k) : Parser Unit).run ts = .ok ((), ts.tail) := by
  cases ts with
  | nil => cases h
  | cons t r =>
    exact (reads_discard k).run_tokens ⟨t, kind_of_nextIs h rfl⟩ r fun _ _ => List.not_mem_nil

theorem Reads.before {k : TokenKind} (hp : p.Reads f shape) (h : apart f.afters [k] = true) :
    p.ReadsBefore k f shape where
  run_tokens x t r ht := by
    refine hp.run_tokens x _ fun u hu hafter => ?_
    cases hu
    exact apart_iff.mp h _ (mem_afters_of_mem_after hafter) (by simp [ht])
  of_run ts a t r ht hrun := by
    obtain ⟨x, rfl, rfl, -⟩ := hp.of_run _ _ _ hrun
    exact ⟨x, rfl, rfl⟩
  of_error := by
    have hboth : (do let a ← p; discard (take k); return a : Parser α).Reads (row [f, token k])
        fun x => shape x.1 :=
      hp.bind h fun _ => (reads_discard k).next rfl fun _ => reads_pure _
    exact hboth.of_error

/-- Something between two signs. -/
theorem ReadsBefore.enclosed {close : Sign} (hp : p.ReadsBefore (.sign close) f shape)
    (opening : Sign) : (do sign opening; let a ← p; sign close; return a : Parser α).Reads
      (row [Syntax.sign opening, f, Syntax.sign close]) fun x => shape x.2.1 := by
  refine (reads_sign opening).next (g := row [f, Syntax.sign close]) rfl fun _ =>
    ⟨?_, ?_, hp.of_error⟩
  · rintro ⟨x, t, u⟩ r -
    have htokens : (row [f, Syntax.sign close]).tokens (x, t, u) ++ r = f.tokens x ++ t.1 :: r := by
      simp [tokens]
    rw [htokens, run_bind_of_ok (hp.run_tokens x t.1 r t.2)]
    exact (run_bind_of_ok ((reads_sign close).run_tokens t r fun _ _ => List.not_mem_nil)).trans rfl
  · intro ts a r hrun
    obtain ⟨b, us, hb, hrest⟩ := exists_of_run_bind hrun
    obtain ⟨_, vs, hclose, hpure⟩ := exists_of_run_bind hrest
    cases hpure
    obtain ⟨t, -, rfl, -⟩ := (reads_sign close).of_run _ _ _ hclose
    obtain ⟨x, rfl, rfl⟩ := hp.of_run _ _ t.1 _ t.2 hb
    exact ⟨(x, t, ()), rfl, by simp [tokens], fun _ _ => List.not_mem_nil⟩

section Lists
variable {opening close : Sign}

theorem closed_eq (opening close : Sign) (p : Parser α) : closed opening close p = (do
    sign opening
    let l ← (do if ← nextIs (.sign close) then pure [] else separated .comma p)
    sign close
    return l) := by
  simp only [closed, bind_assoc]
  congr
  funext _
  congr
  funext b
  cases b <;> rfl

theorem Reads.closed (hp : p.Reads f shape) (hcomma : apart f.afters [.sign .comma] = true)
    (hafter : apart (opt (Syntax.separatedBy .comma f)).afters [.sign close] = true)
    (hnull : f.nullable = false) :
    (closed opening close p).Reads
      (row [Syntax.sign opening, opt (Syntax.separatedBy .comma f), Syntax.sign close])
      fun x => (Syntax.elementsOpt x.2.1).map shape := by
  have hlist := (hp.separated hcomma hnull).before (k := .sign close)
    (apart_iff.mpr fun k hk => apart_iff.mp hafter k (List.mem_append_right _ hk))
  have hfirst : TokenKind.sign close ∉ (Syntax.separatedBy .comma f).firsts := fun hk =>
    apart_iff.mp hafter _ (List.mem_append_left _ hk) List.mem_cons_self
  have hinner :
      (do if ← nextIs (.sign close) then pure [] else Parser.separated .comma p :
        Parser (List α)).ReadsBefore (.sign close) (opt (Syntax.separatedBy .comma f)) fun x =>
          (Syntax.elementsOpt x).map shape := by
    constructor
    · rintro (_ | x) t r ht
      · rw [tokens_none, List.nil_append, run_nextIs_bind, nextIs_of_kind ht, beq_self_eq_true]
        rfl
      · rw [tokens_some, run_nextIs_bind, nextIs_of_firsts hfirst (by simp [nullable, hnull])]
        exact hlist.run_tokens x t r ht
    · intro ts l t r ht hrun
      rw [run_nextIs_bind] at hrun
      split at hrun
      next =>
        cases hrun
        exact ⟨none, rfl, rfl⟩
      next =>
        obtain ⟨x, rfl, rfl⟩ := hlist.of_run _ _ t r ht hrun
        exact ⟨some x, rfl, by rw [tokens_some]⟩
    · intro ts rest hrun
      rw [bind_assoc, run_nextIs_bind] at hrun
      split at hrun
      next hk =>
        rw [pure_bind, run_bind_of_ok (run_discard_of_nextIs hk)] at hrun
        cases hrun
      next hk =>
        refine (stops_expand_iff rfl).mp
          ((hlist.of_error ts rest hrun).inl_of_firsts rfl fun t ht => ?_)
        simpa [firsts] using kind_ne_of_nextIs hk ht
  rw [closed_eq]
  exact hinner.enclosed opening

theorem run_accept_cons {k : TokenKind} {t : Token} (h : t.kind = k) :
    (accept k).run (t :: r) = .ok (true, r) :=
  (reads_accept k).run_tokens (some ⟨t, h⟩) r fun _ _ => List.not_mem_nil

theorem run_accept_of_ne {k l : TokenKind} {t : Token} (ht : t.kind = l) (h : l ≠ k) :
    (accept k).run (t :: r) = .ok (false, t :: r) :=
  (reads_accept k).run_tokens none _
    ((ends_none_iff rfl).mpr (by rw [nextIs_of_kind ht]; exact beq_eq_false_iff_ne.mpr h))

theorem run_trailingUpTo (hp : p.Reads f shape) (hnull : f.nullable = false)
    (hcomma : apart f.afters [.sign .comma] = true)
    (hafter : apart (listed f).afters [.sign close] = true) {x : f.Tree}
    {xs : List (Tok (.sign .comma) × f.Tree)}
    {last : Option (Tok (.sign .comma))} {n : Nat} (hn : xs.length < n) {t : Token}
    (ht : t.kind = .sign close) :
    (trailingUpTo close p n).run ((listed f).tokens (x, xs, last) ++ t :: r) =
      .ok ((x :: xs.map Prod.snd).map shape, t :: r) := by
  have hclose : ∀ k ∈ (listed f).afters, k ≠ .sign close := fun k hk => by
    rintro rfl
    exact apart_iff.mp hafter _ hk List.mem_cons_self
  have hfirst : TokenKind.sign close ∉ f.firsts := fun hk => hclose _ (by simp [afters, hk]) rfl
  have hend : ∀ y, (listed f).Ends y (t :: r) := by
    rintro y _ ⟨⟩ hk
    exact hclose _ (mem_afters_of_mem_after hk) ht
  -- Behind a comma at the end there is nothing but the closing sign.
  have hnone : ∀ m, (trailingUpTo close p m).run (t :: r) = .ok ([], t :: r) := by
    rintro (_ | m)
    · rfl
    · rw [trailingUpTo, run_nextIs_bind, nextIs_of_kind ht, beq_self_eq_true]
      rfl
  induction xs generalizing x n with
  | nil =>
    obtain ⟨n, rfl⟩ := Nat.exists_eq_succ_of_ne_zero (Nat.ne_zero_of_lt hn)
    have hx := hp.run_tokens x _ ((hend (x, [], last)).listed_head hcomma)
    simp only [tokens, List.flatMap_nil, List.nil_append, List.append_assoc] at hx ⊢
    rw [trailingUpTo, run_nextIs_bind, nextIs_of_firsts hfirst hnull, if_neg Bool.false_ne_true,
      run_bind_of_ok hx]
    cases last with
    | none =>
      rw [Option.toList_none, List.map_nil, List.nil_append,
        run_bind_of_ok (run_accept_of_ne ht (hclose _ (by simp [afters])).symm)]
      rfl
    | some c =>
      rw [Option.toList_some, List.map_singleton, List.singleton_append,
        run_bind_of_ok (run_accept_cons c.2), if_pos rfl, run_bind_of_ok (hnone n)]
      rfl
  | cons c xs ih =>
    obtain ⟨n, rfl⟩ := Nat.exists_eq_succ_of_ne_zero (Nat.ne_zero_of_lt hn)
    have hx := hp.run_tokens x _ ((hend (x, c :: xs, last)).listed_head hcomma)
    have hrest := ih (x := c.2) (n := n) (by simpa using hn)
    simp only [List.flatMap_cons, List.append_assoc, List.cons_append] at hx
    rw [trailingUpTo, run_nextIs_bind]
    simp only [tokens, List.flatMap_cons, List.append_assoc, List.cons_append] at hrest ⊢
    rw [nextIs_of_firsts hfirst hnull, if_neg Bool.false_ne_true, run_bind_of_ok hx,
      run_bind_of_ok (run_accept_cons c.1.2), if_pos rfl, run_bind_of_ok hrest]
    rfl

theorem of_run_trailingUpTo (hp : p.Reads f shape) {n : Nat} (hn : ts.length ≤ n) {l : List α}
    {t : Token} (hrun : (trailingUpTo close p n).run ts = .ok (l, t :: r)) :
    ∃ x : (opt (listed f)).Tree, (Syntax.elementsListed x).map shape = l ∧
      (opt (listed f)).tokens x ++ t :: r = ts := by
  induction n generalizing ts l with
  | zero =>
    obtain rfl := List.length_eq_zero_iff.mp (Nat.le_zero.mp hn)
    cases hrun
  | succ n ih =>
    rw [trailingUpTo, run_nextIs_bind] at hrun
    split at hrun
    next =>
      cases hrun
      exact ⟨none, rfl, rfl⟩
    next =>
      obtain ⟨a, us, ha, haccept⟩ := exists_of_run_bind hrun
      obtain ⟨b, vs, hb, hrest⟩ := exists_of_run_bind haccept
      obtain ⟨x, rfl, rfl, -⟩ := hp.of_run _ _ _ ha
      obtain ⟨c, rfl, rfl, -⟩ := (reads_accept _).of_run _ _ _ hb
      cases c with
      | none =>
        cases hrest
        exact ⟨some (x, [], none), rfl, by simp [tokens]⟩
      | some c =>
        obtain ⟨as, ws, has, hpure⟩ := exists_of_run_bind hrest
        cases hpure
        have hlength : vs.length ≤ n := by
          rw [tokens_some] at hn
          simp only [tokens, List.length_append, List.length_singleton] at hn
          omega
        obtain ⟨y, rfl, rfl⟩ := ih hlength has
        cases y with
        | none => exact ⟨some (x, [], some c), rfl, by simp [tokens]⟩
        | some y =>
          refine ⟨some (x, (c, y.1) :: y.2.1, y.2.2), rfl, ?_⟩
          rw [tokens_some, tokens_listed_cons]
          simp [tokens]

theorem if_bind (b : Bool) (p q : Parser α) (k : α → Parser β) :
    (if b then p else q) >>= k = if b then p >>= k else q >>= k := by
  cases b <;> rfl

theorem accept_ne_error {k : TokenKind} : (accept k).run ts ≠ .error rest := by
  intro h
  rw [accept, run_nextIs_bind] at h
  split at h
  next hk =>
    rw [run_bind_of_ok (run_discard_of_nextIs hk)] at h
    cases h
  next => cases h

/-- What stands behind an element of a list is read by a parser for more of the list, if a comma
comes first. -/
theorem stops_listedRest (hclose : close ≠ .comma) {q : Parser (List α)} {a : α}
    (hq : ∀ us, us.length < ts.length → q.run us = .error rest →
      (row [opt (listed f), token (.sign close)]).Stops us rest)
    (hrun : (do
      if ← accept (.sign .comma) then return a :: (← q)
      else
        discard (take (.sign close))
        return [a] : Parser (List α)).run ts =
          .error rest) : (listedRest f close).Stops ts rest := by
  rcases cases_of_bind_error hrun with haccept | ⟨b, us, haccept, hrest⟩
  · exact absurd haccept accept_ne_error
  · obtain ⟨c, rfl, rfl, hc⟩ := (reads_accept _).of_run _ _ _ haccept
    cases c with
    | none =>
      have hdone : (do discard (take (.sign close)); return [a] : Parser (List α)).Reads
          (token (.sign close)) fun _ => [a] :=
        (reads_discard _).thenPure fun _ => rfl
      exact (hdone.of_error _ _ hrest).inl_of_firsts rfl hc
    | some c =>
      rcases cases_of_bind_error hrest with hmore | ⟨_, _, -, hpure⟩
      · have hstops := (hq us (by simp [tokens]) hmore).seq_right (x := c)
          (reads_take (.sign .comma)).delimited rfl fun _ _ => List.not_mem_nil
        rw [tokens_some]
        refine hstops.inr_of_firsts rfl fun t ht => ?_
        cases ht
        simpa [firsts, c.2] using hclose.symm
      · cases hpure

theorem of_trailingUpTo_error (hp : p.Reads f shape) (hcomma : apart f.afters [.sign .comma] = true)
    (hafter : apart (listed f).afters [.sign close] = true) {n : Nat} (hn : ts.length ≤ n)
    (hrun : (do let l ← trailingUpTo close p n; discard (take (.sign close)); return l :
      Parser (List α)).run ts =
      .error rest) : (row [opt (listed f), token (.sign close)]).Stops ts rest := by
  have hclose : ∀ k ∈ (listed f).afters, k ≠ .sign close := fun k hk => by
    rintro rfl
    exact apart_iff.mp hafter _ hk List.mem_cons_self
  have hbehind : apart f.afters (listedRest f close).firsts = true := by
    refine apart_iff.mpr fun k hk hk' => ?_
    rcases List.mem_cons.mp hk' with rfl | hk'
    · exact hclose _ (by simp [afters, hk]) rfl
    · exact apart_iff.mp hcomma k hk hk'
  induction n generalizing ts with
  | zero =>
    obtain rfl := List.length_eq_zero_iff.mp (Nat.le_zero.mp hn)
    cases hrun
    exact stops_nil _
  | succ n ih =>
    -- The closing sign is read behind whichever way the list goes on.
    simp only [trailingUpTo, bind_assoc, if_bind, pure_bind] at hrun
    rw [run_nextIs_bind] at hrun
    split at hrun
    next hk =>
      rw [run_bind_of_ok (run_discard_of_nextIs hk)] at hrun
      cases hrun
    next hk =>
      refine Stops.of_listedStep
        (Stops.inr_of_firsts ?_ rfl fun t ht => by simpa [firsts] using kind_ne_of_nextIs hk ht)
      refine hp.stops_bind hbehind hrun fun x us hts hrest => ?_
      have hne : close ≠ .comma := fun h => hclose _ (by simp [afters]) (congrArg _ h.symm)
      refine stops_listedRest (a := shape x) hne (fun vs hvs => ih ?_)
        (by simpa only [bind_assoc, pure_bind] using hrest)
      rw [← hts, List.length_append] at hn
      omega

theorem Reads.closedTrailing (hp : p.Reads f shape) (hcomma : apart f.afters [.sign .comma] = true)
    (hafter : apart (opt (listed f)).afters [.sign close] = true) (hnull : f.nullable = false) :
    (closedTrailing opening close p).Reads
      (row [Syntax.sign opening, opt (listed f), Syntax.sign close])
      fun x => (Syntax.elementsListed x.2.1).map shape := by
  have hinner : (do trailingUpTo close p (← get).length : Parser (List α)).ReadsBefore (.sign close)
      (opt (listed f)) fun x => (Syntax.elementsListed x).map shape := by
    constructor
    · rintro (_ | ⟨x, xs, last⟩) t r ht
      · rw [tokens_none, List.nil_append, run_get_bind, List.length_cons, trailingUpTo,
          run_nextIs_bind, nextIs_of_kind ht, beq_self_eq_true]
        rfl
      · rw [tokens_some, run_get_bind]
        refine run_trailingUpTo hp hnull hcomma
          (apart_iff.mpr fun k hk => apart_iff.mp hafter k (List.mem_append_right _ hk)) ?_ ht
        rw [List.length_append, List.length_cons]
        exact Nat.lt_of_le_of_lt length_le_tokens_listed (Nat.lt_add_of_pos_right (Nat.succ_pos _))
    · intro ts l t r _ hrun
      exact of_run_trailingUpTo hp (Nat.le_refl _) hrun
    · intro ts rest hrun
      rw [bind_assoc, run_get_bind] at hrun
      exact of_trailingUpTo_error hp hcomma
        (apart_iff.mpr fun k hk => apart_iff.mp hafter k (List.mem_append_right _ hk))
        (Nat.le_refl _) hrun
  simpa only [Parser.closedTrailing, bind_assoc] using hinner.enclosed opening

end Lists

theorem run_sign {s : Sign} (t : Tok (.sign s)) : (sign s).run (t.1 :: r) = .ok ((), r) :=
  (reads_sign s).run_tokens t r fun _ _ => List.not_mem_nil

theorem tokens_opt_token {k : TokenKind} (o : Option (Tok k)) :
    (opt (token k)).tokens o = o.toList.map Subtype.val := by
  cases o <;> rfl

theorem ends_opt_token {k : TokenKind} (h : ∀ t ∈ r.head?, t.kind ≠ k) (o : Option (Tok k)) :
    (opt (token k)).Ends o r := by
  cases o with
  | none => exact fun t ht hk => h t ht (List.mem_singleton.mp hk)
  | some t => exact fun _ _ => List.not_mem_nil

theorem reads_namedType : (do return .named (← word) : Parser TypeExpr).Reads Syntax.name fun x =>
    .named x.word :=
      reads_word.thenPure fun _ => rfl

theorem run_typeUpTo (x : TypeTree) {n : Nat} (hn : x.tokens.length ≤ n) :
    (typeUpTo n).run (x.tokens ++ r) = .ok (x.expr, r) := by
  induction x generalizing n r with
  | named name =>
    obtain ⟨n, rfl⟩ := Nat.exists_eq_succ_of_ne_zero (Nat.ne_zero_of_lt hn)
    have hkind : ((TypeTree.named name).tokens ++ r).head?.map Token.kind = some .name :=
      congrArg some name.2
    rw [typeUpTo, run_next_bind, hkind]
    exact reads_namedType.run_tokens name r fun _ _ => List.not_mem_nil
  | array opening element closing ih =>
    obtain ⟨n, rfl⟩ := Nat.exists_eq_succ_of_ne_zero (Nat.ne_zero_of_lt hn)
    have hkind : ((TypeTree.array opening element closing).tokens ++ r).head?.map Token.kind =
        some (.sign .openBracket) :=
      congrArg some opening.2
    have hn' : element.tokens.length ≤ n := by
      simp only [TypeTree.tokens, List.length_cons, List.length_append] at hn
      omega
    rw [typeUpTo, run_next_bind, hkind]
    simp only [TypeTree.tokens, List.cons_append, List.append_assoc, List.nil_append]
    rw [run_bind_of_ok (run_sign opening), run_bind_of_ok (ih hn'),
      run_bind_of_ok (run_sign closing)]
    rfl
  | ref mark lifetime mutable inner ih =>
    obtain ⟨n, rfl⟩ := Nat.exists_eq_succ_of_ne_zero (Nat.ne_zero_of_lt hn)
    have hkind : ((TypeTree.ref mark lifetime mutable inner).tokens ++ r).head?.map Token.kind =
        some (.sign .ampersand) :=
      congrArg some mark.2
    have hn' : inner.tokens.length ≤ n := by
      simp only [TypeTree.tokens, List.length_cons, List.length_append] at hn
      omega
    have hlifetime := (reads_lifetime.optional rfl rfl).run_tokens lifetime _
      (ends_opt_token (inner.kind_head_ne_lifetime mutable r) lifetime)
    have hmutable := (reads_accept (.keyword .mutable)).run_tokens mutable _
      (ends_opt_token (inner.kind_head_ne (by decide) r) mutable)
    rw [tokens_opt_token] at hlifetime hmutable
    rw [typeUpTo, run_next_bind, hkind]
    simp only [TypeTree.tokens, List.cons_append, List.append_assoc]
    rw [run_bind_of_ok (run_sign mark), run_bind_of_ok hlifetime, run_bind_of_ok hmutable,
      run_bind_of_ok (ih hn')]
    rfl

theorem of_run_typeUpTo {n : Nat} {e : TypeExpr} (hrun : (typeUpTo n).run ts = .ok (e, r)) :
    ∃ x : TypeTree, x.expr = e ∧ x.tokens ++ r = ts := by
  induction n generalizing ts e r with
  | zero => cases hrun
  | succ n ih =>
    rw [typeUpTo, run_next_bind] at hrun
    split at hrun
    next =>
      obtain ⟨x, rfl, rfl, -⟩ := reads_namedType.of_run _ _ _ hrun
      exact ⟨.named x, rfl, rfl⟩
    next =>
      obtain ⟨_, us, hopening, hrest⟩ := exists_of_run_bind hrun
      obtain ⟨_, vs, helement, hrest'⟩ := exists_of_run_bind hrest
      obtain ⟨_, ws, hclosing, hpure⟩ := exists_of_run_bind hrest'
      cases hpure
      obtain ⟨closing, -, rfl, -⟩ := (reads_sign _).of_run _ _ _ hclosing
      obtain ⟨element, rfl, rfl⟩ := ih helement
      obtain ⟨opening, -, rfl, -⟩ := (reads_sign _).of_run _ _ _ hopening
      exact ⟨.array opening element closing, rfl, by simp [TypeTree.tokens, tokens]⟩
    next =>
      obtain ⟨_, us, hmark, hrest⟩ := exists_of_run_bind hrun
      obtain ⟨_, vs, hlifetime, hrest'⟩ := exists_of_run_bind hrest
      obtain ⟨_, ws, hmutable, hrest''⟩ := exists_of_run_bind hrest'
      obtain ⟨_, ws', hinner, hpure⟩ := exists_of_run_bind hrest''
      cases hpure
      obtain ⟨inner, rfl, rfl⟩ := ih hinner
      obtain ⟨mutable, rfl, rfl, -⟩ := (reads_accept _).of_run _ _ _ hmutable
      obtain ⟨lifetime, rfl, rfl, -⟩ := (reads_lifetime.optional rfl rfl).of_run _ _ _ hlifetime
      obtain ⟨mark, -, rfl, -⟩ := (reads_sign _).of_run _ _ _ hmark
      refine ⟨.ref mark lifetime mutable inner, rfl, ?_⟩
      rw [tokens_opt_token, tokens_opt_token]
      simp [TypeTree.tokens, tokens]
    next => cases hrun

theorem delimited_type : Form.type.Delimited := fun x _ _ _ _ _ heq => (x.eq_of_append heq).2

section
variable {n : Nat} (hinner : ∀ us, us.length < ts.length → (typeUpTo n).run us = .error rest →
    Form.type.Stops us rest)
include hinner

theorem stops_arrayType (hrun : (do
      sign .openBracket
      let element ← typeUpTo n
      sign .closeBracket
      return .array element : Parser TypeExpr).run ts = .error rest) :
    (Syntax.enclosed .openBracket .type .closeBracket).Stops ts rest := by
  refine (reads_sign _).stops_bind rfl hrun fun opening us hts hrest => ?_
  rcases cases_of_bind_error hrest with helement | ⟨_, vs, helement, hclosing⟩
  · exact (hinner us (by simp [← hts, tokens]) helement).seq_left rfl
  · obtain ⟨element, rfl, rfl⟩ := of_run_typeUpTo helement
    have hclose : (do sign .closeBracket; return .array element.expr : Parser TypeExpr).Reads
        (row [Syntax.sign .closeBracket]) fun _ => .array element.expr :=
          (reads_sign _).next rfl fun _ => reads_pure _
    exact (hclose.of_error _ _ hclosing).seq_right (x := element) delimited_type rfl fun _ _ =>
      List.not_mem_nil

theorem stops_refType (hrun : (do
      sign .ampersand
      let tag ← optional .lifetime lifetime
      let exclusive ← accept (.keyword .mutable)
      return .ref tag exclusive (← typeUpTo n) : Parser TypeExpr).run ts = .error rest) :
    (row [Syntax.sign .ampersand, opt Syntax.lifetime, opt (Syntax.keyword .mutable), .type]).Stops
      ts rest := by
  refine (reads_sign _).stops_bind rfl hrun fun mark us hts hrest => ?_
  refine (reads_lifetime.optional rfl rfl).stops_bind (by decide) hrest fun lifetime vs hus hrest =>
    ?_
  refine (reads_accept _).stops_bind (by decide) hrest fun mutable ws hvs hrest => ?_
  rcases cases_of_bind_error hrest with htype | ⟨_, _, -, hpure⟩
  · refine (hinner ws ?_ htype).seq_left rfl
    simp only [← hts, ← hus, ← hvs, tokens, List.length_append, List.length_singleton]
    omega
  · cases hpure

end

theorem of_typeUpTo_error {n : Nat} (hn : ts.length ≤ n)
    (hrun : (typeUpTo n).run ts = .error rest) : Form.type.Stops ts rest := by
  induction n generalizing ts with
  | zero =>
    obtain rfl := List.length_eq_zero_iff.mp (Nat.le_zero.mp hn)
    cases hrun
    exact stops_nil _
  | succ n ih =>
    have hinner : ∀ us, us.length < ts.length → (typeUpTo n).run us = .error rest →
        Form.type.Stops us rest :=
      fun us hus => ih (by omega)
    rw [typeUpTo, run_next_bind] at hrun
    split at hrun
    next hhead =>
      refine Stops.of_typeStep
        ((reads_namedType.of_error _ _ hrun).inl_of_firsts rfl fun t ht => ?_)
      rw [kind_of_head hhead ht]
      decide
    next hhead =>
      have harray := stops_arrayType hinner hrun
      refine Stops.of_typeStep
        (Stops.inr_of_firsts (harray.inl_of_firsts rfl fun t ht => ?_) rfl fun t ht => ?_) <;>
        rw [kind_of_head hhead ht] <;> decide
    next hhead =>
      have href := stops_refType hinner hrun
      refine Stops.of_typeStep
        (Stops.inr_of_firsts (href.inr_of_firsts rfl fun t ht => ?_) rfl fun t ht => ?_) <;>
        rw [kind_of_head hhead ht] <;> decide
    next hname hopening hmark =>
      cases hrun
      refine stops_of_firsts rfl fun t ht hfirst => ?_
      have hkind := congrArg (Option.map Token.kind) (Option.mem_def.mp ht)
      simp only [firsts, List.mem_cons, List.not_mem_nil, or_false] at hfirst
      rcases hfirst with h | h | h
      · exact hname (hkind.trans (congrArg some h))
      · exact hopening (hkind.trans (congrArg some h))
      · exact hmark (hkind.trans (congrArg some h))

theorem reads_type : type.Reads Form.type TypeTree.expr where
  run_tokens x r _ := run_typeUpTo x (by rw [List.length_append]; exact Nat.le_add_right ..)
  of_run ts e r hrun := by
    obtain ⟨x, rfl, rfl⟩ := of_run_typeUpTo hrun
    exact ⟨x, rfl, rfl, fun _ _ => List.not_mem_nil⟩
  of_error ts rest hrun := of_typeUpTo_error (Nat.le_refl _) hrun

/-- A way to go on with each next token reads a form, if that token is of one of some kinds. -/
structure Chooses (q : Option TokenKind → Parser α) (ks : List TokenKind) (f : Form)
    (shape : f.Tree → α) : Prop where
  run_tokens : ∀ x r, f.Ends x r → (next? >>= q).run (f.tokens x ++ r) = .ok (shape x, r)
  of_run : ∀ k ∈ ks, ∀ ts a r, (q (some k)).run ts = .ok (a, r) → ∃ x, shape x = a ∧
    f.tokens x ++ r = ts ∧ f.Ends x r
  of_error : ∀ k ∈ ks, ∀ ts rest, ts.head?.map Token.kind = some k →
    (q (some k)).run ts = .error rest → f.Stops ts rest

theorem Reads.chooses (k : TokenKind) {q : Option TokenKind → Parser α}
    (h : (q (some k)).Reads f shape) (hfirst : ∀ l ∈ f.firsts, l = k) (hnull : f.nullable = false) :
    Chooses q [k] f shape where
  run_tokens x r hend := by
    rw [run_next_bind, head_kind_of_firsts hfirst hnull]
    exact h.run_tokens x r hend
  of_run l hl := by
    obtain rfl := List.mem_singleton.mp hl
    exact h.of_run
  of_error l hl ts rest _ := by
    obtain rfl := List.mem_singleton.mp hl
    exact h.of_error ts rest

/-- What one of two choices takes with a token, the other one takes too if the token is its own. -/
theorem Chooses.exists_of_head {q : Option TokenKind → Parser α} {ks ls : List TokenKind}
    {shape' : g.Tree → α} (hf : Chooses q ks f shape) (hg : Chooses q ls g shape') {k : TokenKind}
    (hk : k ∈ ks) {y : g.Tree} (hend : g.Ends y r)
    (hhead : (g.tokens y ++ r).head?.map Token.kind = some k) :
    ∃ x : f.Tree, f.Ends x r ∧ f.tokens x ++ r = g.tokens y ++ r := by
  have hrun := hg.run_tokens y r hend
  rw [run_next_bind, hhead] at hrun
  obtain ⟨x, -, htokens, hx⟩ := hf.of_run k hk _ _ _ hrun
  exact ⟨x, hx, htokens⟩

theorem Chooses.alt {q : Option TokenKind → Parser α} {ks ls : List TokenKind} {shape' : g.Tree → α}
    (hf : Chooses q ks f shape) (hg : Chooses q ls g shape') :
    Chooses q (ks ++ ls) (alt f g) (Sum.elim shape shape') where
  run_tokens := by
    rintro (x | y) r hend
    · exact hf.run_tokens x r hend
    · exact hg.run_tokens y r hend
  of_run k hk ts a r hrun := by
    rcases List.mem_append.mp hk with hk | hk
    · obtain ⟨x, hx⟩ := hf.of_run k hk ts a r hrun
      exact ⟨.inl x, hx⟩
    · obtain ⟨y, hy⟩ := hg.of_run k hk ts a r hrun
      exact ⟨.inr y, hy⟩
  of_error k hk ts rest hhead hrun := by
    rcases List.mem_append.mp hk with hk | hk
    · exact (hf.of_error k hk ts rest hhead hrun).inl fun y r hend h =>
        hf.exists_of_head hg hk hend (h ▸ hhead)
    · exact ((hg.of_error k hk ts rest hhead hrun).inl fun x r hend h =>
        hg.exists_of_head hf hk hend (h ▸ hhead)).swap

/-- Where all other tokens are refused, all is read that some token leads to. -/
theorem Chooses.reads {q : Option TokenKind → Parser α} {ks : List TokenKind}
    (h : Chooses q ks f shape)
    (hstuck : ∀ o, (∀ k ∈ ks, o ≠ some k) → ∀ ts, (q o).run ts = .error ts) :
    (next? >>= q).Reads f shape where
  run_tokens := h.run_tokens
  of_run ts a r hrun := by
    rw [run_next_bind] at hrun
    by_cases hk : ∃ k ∈ ks, ts.head?.map Token.kind = some k
    · obtain ⟨k, hk, hhead⟩ := hk
      rw [hhead] at hrun
      exact h.of_run k hk ts a r hrun
    · rw [hstuck _ fun k hk' hhead => hk ⟨k, hk', hhead⟩] at hrun
      cases hrun
  of_error ts rest hrun := by
    rw [run_next_bind] at hrun
    by_cases hk : ∃ k ∈ ks, ts.head?.map Token.kind = some k
    · obtain ⟨k, hk, hhead⟩ := hk
      rw [hhead] at hrun
      exact h.of_error k hk ts rest hhead hrun
    · have hother := hstuck _ fun k hk' hhead => hk ⟨k, hk', hhead⟩
      cases (hother ts).symm.trans hrun
      refine stops_self fun t ht x r us hend heq => ?_
      have hok := h.run_tokens x r hend
      rw [ht] at hother
      rw [heq, run_next_bind] at hok
      cases (hother _).symm.trans hok

/-- A common beginning may be read first. -/
theorem Reads.factor {h : Form} {shape' : (alt (seq f g) (seq f h)).Tree → α}
    (hp : p.Reads (seq f (alt g h)) fun x => x.2.elim (fun y => shape' (.inl (x.1, y))) fun z =>
      shape' (.inr (x.1, z))) :
    p.Reads (alt (seq f g) (seq f h)) shape' where
  run_tokens := by
    rintro (⟨x, y⟩ | ⟨x, z⟩) r hend
    · exact hp.run_tokens (x, .inl y) r hend
    · exact hp.run_tokens (x, .inr z) r hend
  of_run ts a r hrun := by
    obtain ⟨⟨x, y | z⟩, hshape, htokens, hend⟩ := hp.of_run ts a r hrun
    · exact ⟨.inl (x, y), hshape, htokens, hend⟩
    · exact ⟨.inr (x, z), hshape, htokens, hend⟩
  of_error ts rest hrun := (hp.of_error ts rest hrun).factor

/-- Instead of two forms, one that has something more in front, the additional part may be read as
what can be missing. -/
theorem Reads.expand {shape' : (alt (seq f g) g).Tree → α}
    (hp : p.Reads (seq (opt f) g) fun x => x.1.elim (shape' (.inr x.2)) fun y =>
      shape' (.inl (y, x.2)))
    (hnull : g.nullable = false) : p.Reads (alt (seq f g) g) shape' := by
  constructor
  · rintro (⟨x, y⟩ | y) r hend
    · simpa [tokens] using hp.run_tokens (some x, y) r hend
    · exact hp.run_tokens (none, y) r ((ends_seq_none hnull).mpr hend)
  · intro ts a r hrun
    obtain ⟨⟨_ | x, y⟩, hshape, htokens, hend⟩ := hp.of_run ts a r hrun
    · exact ⟨.inr y, hshape, htokens, (ends_seq_none hnull).mp hend⟩
    · exact ⟨.inl (x, y), hshape, by simpa [tokens] using htokens, hend⟩
  · exact fun ts rest hrun => (stops_expand_iff hnull).mpr (hp.of_error ts rest hrun)

end Ownership.Listing.Parser
