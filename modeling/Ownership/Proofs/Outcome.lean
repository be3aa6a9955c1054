import Ownership.Proofs.Building
import Ownership.Proofs.Modular

/-! # What becomes of a listing

Functions are built with a table of bindings, which says of each name what is declared of it first.
A listing gives a program if and only if it is coherent. The error that stops any other is one that
has a place, unless a type that is declared has the name of a builtin one.
-/
namespace Ownership.Listing
namespace Build
variable {items : List Item} {A : TypeTable → Prop} {t u : TypeTable} {ds : List Declaration}
    {r : Registry Binding}
  {d : Declaration} {b : Binding}

structure BindingFor (t : TypeTable) (d : Declaration) (b : Binding) : Prop where
  name : b.name = d.name
  unplaced : d.type.unplaced = d.type
  type : Denotes t d.type b.type
  scope : b.scope = d.scope
  mutable : b.mutable = d.mutable

/-- A table has for each name what is declared of it first. -/
def Tracks (t : TypeTable) (ds : List Declaration) (r : Registry Binding) : Prop :=
  ∀ n, Option.Rel (BindingFor t) (ds.find? fun d => d.name == n) (r.get? n)

theorem BindingFor.mono (hgrows : t.Grows u) (h : BindingFor t d b) : BindingFor u d b :=
  ⟨h.name, h.unplaced, h.type.mono hgrows, h.scope, h.mutable⟩

section
variable {α β : Type} {R S : α → β → Prop} {o : Option α} {o' : Option β}

theorem optionRel_imp (hRS : ∀ a b, R a b → S a b) (h : Option.Rel R o o') : Option.Rel S o o' := by
  cases h with
  | none => exact .none
  | some hab => exact .some (hRS _ _ hab)

theorem exists_of_optionRel (h : Option.Rel R o o') {b : β} (hb : o' = some b) :
    ∃ a, o = some a ∧ R a b := by
  subst hb
  cases h with
  | some hab => exact ⟨_, rfl, hab⟩

end

theorem stable_tracks (ds : List Declaration) (r : Registry Binding) :
    Stable fun t => Tracks t ds r :=
  fun _ _ hgrows h n => optionRel_imp (fun _ _ hb => hb.mono hgrows) (h n)

theorem find?_concat_of_ne {n : String} (h : d.name ≠ n) :
    (ds ++ [d]).find? (fun e => e.name == n) = ds.find? fun e => e.name == n := by
  rw [List.find?_append, List.find?_cons_of_neg (by simpa using h)]
  simp

/-- A declaration that agrees with the first of its name may be bound. -/
theorem Tracks.insert (h : Tracks t ds r) (hb : BindingFor t d b)
    (hsame : ∀ e ∈ ds.find? (fun e => e.name == d.name), e = d) :
    Tracks t (ds ++ [d]) (r.insert b) := by
  intro n
  have hget : (r.insert b).get? n = if d.name = n then some b else r.get? n :=
    hb.name ▸ r.get?_insert b n
  by_cases hn : d.name = n
  · subst hn
    have hfind : (ds ++ [d]).find? (fun e => e.name == d.name) = some d := by
      rw [List.find?_append, List.find?_cons_of_pos (by simp)]
      cases hfirst : ds.find? fun e => e.name == d.name with
      | none => rfl
      | some e => rw [hsame e hfirst, Option.some_or]
    rw [hget, if_pos rfl, hfind]
    exact .some hb
  · rw [hget, if_neg hn, find?_concat_of_ne hn]
    exact h n

section Signatures

structure ParamFor (t : TypeTable) (p : ParamExpr) (q : Param) : Prop where
  name : q.name = p.name
  type : Denotes t p.type q.type
  mutable : q.mutable = p.mutable

theorem stable_paramFor {p : ParamExpr} {q : Param} :
    Stable fun t => ParamFor t p q := fun _ _ hgrows h =>
  ⟨h.name, h.type.mono hgrows, h.mutable⟩

theorem Tracks.contains (h : Tracks t ds r) (n : String) :
    (ds.find? fun d => d.name == n).isSome = r.contains n := by
  rw [← Registry.isSome_get?]
  have hn := h n
  generalize ds.find? (fun d => d.name == n) = declared at hn ⊢
  generalize r.get? n = bound at hn ⊢
  cases hn <;> rfl

theorem Tracks.bindParam (h : Tracks t ds r) (s : Signature) {p : ParamExpr} {q : Param}
    (hq : ParamFor t p q) : Tracks t (ds ++ [p.declaration]) (s.bindParam r q) := by
  have hname : p.declaration.name = q.name := hq.name.symm
  have hcontains := h.contains q.name
  rw [Signature.bindParam]
  split
  next hbound =>
    -- A parameter that has the name of one before is not bound, and is not the first of its name
    -- either.
    rw [hbound] at hcontains
    intro n
    by_cases hn : q.name = n
    · subst hn
      rw [List.find?_append, Option.or_of_isSome hcontains]
      exact h q.name
    · rw [find?_concat_of_ne (hname ▸ hn)]
      exact h n
  next hfree =>
    rw [Bool.not_eq_true _ |>.mp hfree, Option.isSome_eq_false_iff, Option.isNone_iff_eq_none,
      ← hname] at hcontains
    refine h.insert ⟨hq.name, p.type.unplaced_unplaced, denotes_unplaced.mpr hq.type, rfl,
      hq.mutable⟩ fun e he => ?_
    rw [hcontains] at he
    cases he

theorem tracks_nil : Tracks t [] ∅ := fun _ => .none

theorem Tracks.bindParams (s : Signature) {ps : List ParamExpr} {qs : List Param}
    (hqs : List.Forall₂ (ParamFor t) ps qs) (h : Tracks t ds r) :
    Tracks t (ds ++ ps.map ParamExpr.declaration) (qs.foldl s.bindParam r) := by
  induction hqs generalizing ds r with
  | nil => rwa [List.map_nil, List.append_nil]
  | cons hq _ ih =>
    rw [List.map_cons, List.append_cons]
    exact ih (h.bindParam s hq)

theorem decides_param (p : ParamExpr) (hmention : Mentions items p.type.base) :
    Decides items (Fits items) (param p) (Known items p.type.base) fun q t =>
      Fits items t ∧ ParamFor t p q :=
  .thenPure (decides_typeId p.type hmention) fun _ _ h => ⟨h.1, rfl, h.2, rfl⟩

structure SignatureFor (t : TypeTable) (s : SignatureExpr) (sig : Signature) : Prop where
  name : sig.name = s.name
  params : List.Forall₂ (ParamFor t) s.params sig.params
  returns : Option.Rel (Denotes t) s.returns sig.returns

theorem SignatureFor.definedIn {s : SignatureExpr} {sig : Signature} (h : SignatureFor t s sig) :
    sig.DefinedIn t := by
  refine ⟨forall_mem_of_forall₂ (fun _ _ hq => hq.type.defines) h.params, fun id hid => ?_⟩
  obtain ⟨e, -, hdenotes⟩ := exists_of_optionRel h.returns hid
  exact hdenotes.defines

theorem stable_signatureFor (s : SignatureExpr) (sig : Signature) :
    Stable fun t => SignatureFor t s sig := by
  intro t u hgrows h
  exact ⟨h.name, h.params.imp fun _ _ hq => stable_paramFor t u hgrows hq,
    optionRel_imp (fun _ _ hdenotes => hdenotes.mono hgrows) h.returns⟩

theorem decides_signature (s : SignatureExpr) (hmention : ∀ e ∈ s.types, Mentions items e.base) :
    Decides items (Fits items) (signature s)
      ((∀ g ∈ s.generics, g.name ≠ staticLifetime) ∧ ∀ e ∈ s.types, Known items e.base)
      fun sig t => (Fits items t ∧ Tracks t (s.params.map ParamExpr.declaration) sig.bindings) ∧
        SignatureFor t s sig := by
  have hparams : ∀ p ∈ s.params, Mentions items p.type.base := fun p hp =>
    hmention p.type (List.mem_append_left _ (List.mem_map_of_mem hp))
  have hreturns : ∀ e ∈ s.returns, Mentions items e.base := fun e he =>
    hmention e (List.mem_append_right _ (Option.mem_toList.mpr he))
  rw [signature]
  refine .iff (.bind (decides_forM (K := fun g => g.name ≠ staticLifetime) fun g _ =>
    .iff (decides_ensure _ _ _) (by simp))
      fun _ _ =>
        .bind (decides_mapM (fun _ _ => stable_paramFor) fun p hp => decides_param p (hparams p hp))
          fun _ params =>
      .thenPure (.frame (decides_optionMapM fun e he => decides_typeId e (hreturns e he))
        (stable_forall₂ fun _ _ => stable_paramFor)) ?_) ?_
  · rintro returns t ⟨⟨hfits, hreturned⟩, hqs⟩
    exact ⟨⟨hfits, Tracks.bindParams _ hqs tracks_nil⟩, rfl, hqs, hreturned⟩
  · rw [SignatureExpr.types, List.forall_mem_append, List.forall_mem_map]
    simp only [Option.mem_toList, Option.mem_def]

end Signatures

section Bodies
variable {f : Function}

section
variable {γ : Type} [Named γ] {entries : Registry γ}

theorem names_insert_of_new {a : γ} (h : Named.name a ∉ entries.names) :
    (entries.insert a).names = entries.names ++ [Named.name a] := by
  rw [Registry.names_insert, if_neg (mt Registry.contains_iff_mem_names.mp h)]

theorem decides_new (n : String) (problem : Problem) (span : Span) :
    Decides items A (ensure (!entries.contains n) problem span) (n ∉ entries.names) fun _ => A := by
  refine .iff (decides_ensure _ _ _) ?_
  rw [← Registry.contains_iff_mem_names, Bool.not_eq_true, Bool.not_eq_true']

end

/-- The scopes are decided to come once. Nothing else of the function changes. -/
theorem decides_scopes (hf : f.scopes.names = [rootScope]) (l : List ScopeExpr) :
    Decides items A (l.foldlM scope f) (rootScope :: l.map ScopeExpr.name).Nodup
      fun g t =>
        (g.signature = f.signature ∧ g.bindings = f.bindings ∧ g.blocks = f.blocks) ∧ A t := by
  refine .post (.pre (decides_foldlM (C := fun pre => (rootScope :: pre.map ScopeExpr.name).Nodup)
    (I := fun pre g t => (g.scopes.names = rootScope :: pre.map ScopeExpr.name ∧
      g.signature = f.signature ∧ g.bindings = f.bindings ∧ g.blocks = f.blocks) ∧ A t)
    (fun pre post h => ?_) (fun pre g s _ hpre => .assume ?_) [] f (by simp)) fun t ht =>
      ⟨⟨hf, rfl, rfl, rfl⟩, ht⟩)
    fun g t ht => ⟨ht.1.2, ht.2⟩
  · rw [List.map_append, ← List.cons_append] at h
    exact (List.nodup_append.mp h).1
  · rintro ⟨hnames, hsame⟩
    have hlist : rootScope :: (pre ++ [s]).map ScopeExpr.name = g.scopes.names ++ [s.name] := by
      simp [hnames]
    rw [hlist, nodup_concat (hnames ▸ hpre), scope]
    refine .iff (.bind (decides_new s.name _ _) fun hnew _ => decides_pure _ fun t ht =>
      ⟨⟨?_, hsame⟩, ht⟩) (and_iff_left trivial)
    exact names_insert_of_new hnew

/-- A place is declared as it is bound if and only if what is said of it is the same. -/
theorem sameDeclaration_iff (ht : t.Distinct) {b' : Binding} {d' : Declaration}
    (hb : BindingFor t d b) (hb' : BindingFor t d' b') : b.sameDeclaration b' = true ↔ d' = d := by
  have htype : b.type = b'.type ↔ d.type = d'.type := by
    rw [← hb.unplaced, ← hb'.unplaced]
    exact ⟨fun h => hb.type.unplaced_eq (h ▸ hb'.type), hb.type.id_eq ht hb'.type⟩
  simp only [Binding.sameDeclaration, Bool.and_eq_true, beq_iff_eq]
  rw [hb.name, hb'.name, htype, hb.scope, hb'.scope, hb.mutable, hb'.mutable]
  obtain ⟨name, type, scope, mutable⟩ := d
  obtain ⟨name', type', scope', mutable'⟩ := d'
  simp only [Declaration.mk.injEq]
  grind

theorem Tracks.all_sameDeclaration (h : Tracks t ds r) (ht : t.Distinct) (hb : BindingFor t d b) :
    (r.get? d.name).all b.sameDeclaration = true ↔
      ∀ e ∈ ds.find? (fun e => e.name == d.name), e = d := by
  have hn := h d.name
  generalize ds.find? (fun e => e.name == d.name) = declared at hn ⊢
  generalize r.get? d.name = bound at hn ⊢
  cases hn with
  | none => simp
  | some hb' => simpa using sameDeclaration_iff ht hb hb'

theorem decides_agrees (ds : List Declaration) (d : Declaration) (problem : Problem) (span : Span)
    (h : ∀ t, A t → t.Distinct ∧ BindingFor t d b ∧ Tracks t ds r) :
    Decides items A (ensure ((r.get? d.name).all b.sameDeclaration) problem span)
      (∀ e ∈ ds.find? (fun e => e.name == d.name), e = d) fun _ => A :=
  .iffOn (decides_ensure _ _ _) fun t ht => (h t ht).2.2.all_sameDeclaration (h t ht).1 (h t ht).2.1

theorem decides_statement (x : StatementExpr)
    (hmention : ∀ e ∈ x.statement.type?, Mentions items e.base) :
    Decides items (fun t => Fits items t ∧ Tracks t ds f.bindings) (statement f x)
      ((∀ e ∈ x.statement.type?, Known items e.base) ∧
        Consistent ds x.statement.declaration?.toList)
      fun r t => (r.1.signature = f.signature ∧ r.1.blocks = f.blocks) ∧ Fits items t ∧
        Tracks t (ds ++ x.statement.declaration?.toList) r.1.bindings := by
  obtain ⟨s, span⟩ := x
  cases s with
  | op op =>
    refine .iff (decides_pure _ fun t ht => ⟨⟨rfl, rfl⟩, ?_⟩) ?_
    · simpa [Statement.declaration?] using ht
    · simp [Statement.declaration?, Statement.type?, consistent_nil]
  | declare mutable name type scope =>
    simp only [Statement.declaration?, Statement.type?, Option.mem_some_iff, forall_eq',
      Option.toList_some] at hmention ⊢
    rw [consistent_cons]
    have hbinding : ∀ t id, Denotes t type id →
        BindingFor t ⟨name, type.unplaced, scope.getD rootScope, mutable⟩
        ⟨name, id, scope.getD rootScope, mutable, span⟩ := fun t id h =>
      ⟨rfl, type.unplaced_unplaced, denotes_unplaced.mpr h, rfl, rfl⟩
    refine .iff (.bind (.frame (decides_typeId type hmention) (stable_tracks ds f.bindings))
      fun _ id =>
      .bind (decides_agrees ds ⟨name, type.unplaced, scope.getD rootScope, mutable⟩ _ _ ?_)
        fun hsame _ => decides_pure _ ?_)
      (and_congr_right fun _ => ?_)
    · rintro t ⟨⟨hfits, hdenotes⟩, htracks⟩
      exact ⟨hfits.distinct, hbinding t id hdenotes, htracks⟩
    · rintro t ⟨⟨hfits, hdenotes⟩, htracks⟩
      exact ⟨⟨rfl, rfl⟩, hfits, htracks.insert (hbinding t id hdenotes) hsame⟩
    · exact and_congr_right fun _ => iff_of_true trivial consistent_nil

theorem declarations_cons (x : StatementExpr) (l : List StatementExpr) :
    declarations (x :: l) = x.statement.declaration?.toList ++ declarations l := by
  cases h : x.statement.declaration? <;> simp [declarations, h]

theorem declaredTypes_cons (x : StatementExpr) (l : List StatementExpr) :
    declaredTypes (x :: l) = x.statement.type?.toList ++ declaredTypes l := by
  cases h : x.statement.type? <;> simp [declaredTypes, h]

theorem decides_statements {l : List StatementExpr}
    (hmention : ∀ e ∈ declaredTypes l, Mentions items e.base) :
    Decides items (fun t => Fits items t ∧ Tracks t ds f.bindings) (statements f l)
      ((∀ e ∈ declaredTypes l, Known items e.base) ∧ Consistent ds (declarations l))
      fun r t => (r.1.signature = f.signature ∧ r.1.blocks = f.blocks) ∧ Fits items t ∧
        Tracks t (ds ++ declarations l) r.1.bindings := by
  induction l generalizing f ds with
  | nil =>
    refine .iff (decides_pure _ fun t ht => ⟨⟨rfl, rfl⟩, ?_⟩)
      (iff_of_true trivial ⟨fun e he => (by cases he), consistent_nil⟩)
    rwa [declarations, List.filterMap_nil, List.append_nil]
  | cons x l ih =>
    rw [declaredTypes_cons, List.forall_mem_append] at hmention
    rw [declaredTypes_cons, List.forall_mem_append, declarations_cons, consistent_append,
      ← List.append_assoc, statements]
    simp only [Option.mem_toList] at hmention ⊢
    refine .iff (.bind (decides_statement x hmention.1) fun _ r => .assume fun hsame =>
      .thenPure (ih hmention.2) ?_) ?_
    · rintro r' t ⟨hsame', hfits, htracks⟩
      exact ⟨⟨hsame'.1.trans hsame.1, hsame'.2.trans hsame.2⟩, hfits, htracks⟩
    · exact and_and_and_comm

theorem decides_block {b : BlockExpr}
    (hmention : ∀ e ∈ declaredTypes b.body, Mentions items e.base) :
    Decides items (fun t => Fits items t ∧ Tracks t ds f.bindings) (block f b)
      (b.label ∉ f.blocks.names ∧ (∀ e ∈ declaredTypes b.body, Known items e.base) ∧
        Consistent ds (declarations b.body))
      fun g t => (g.signature = f.signature ∧ g.blocks.names = f.blocks.names ++ [b.label]) ∧
        Fits items t ∧ Tracks t (ds ++ declarations b.body) g.bindings := by
  refine .bind (decides_new b.label _ _) fun hnew _ => .thenPure (decides_statements hmention) ?_
  rintro r t ⟨⟨hsignature, hblocks⟩, h⟩
  refine ⟨⟨hsignature, ?_⟩, h⟩
  rw [← hblocks] at hnew ⊢
  exact names_insert_of_new hnew

theorem declarations_append (l l' : List BlockExpr) :
    declarations ((l ++ l').flatMap BlockExpr.body) =
    declarations (l.flatMap BlockExpr.body) ++ declarations (l'.flatMap BlockExpr.body) := by
  rw [List.flatMap_append, declarations, List.filterMap_append]
  rfl

theorem declaredTypes_append (l l' : List BlockExpr) :
    declaredTypes ((l ++ l').flatMap BlockExpr.body) =
    declaredTypes (l.flatMap BlockExpr.body) ++ declaredTypes (l'.flatMap BlockExpr.body) := by
  rw [List.flatMap_append, declaredTypes, List.filterMap_append]
  rfl

theorem decides_blocks (ds : List Declaration) (hf : f.blocks.names = []) {l : List BlockExpr}
    (hmention : ∀ e ∈ declaredTypes (l.flatMap BlockExpr.body), Mentions items e.base) :
    Decides items (fun t => Fits items t ∧ Tracks t ds f.bindings) (l.foldlM block f)
      ((l.map BlockExpr.label).Nodup ∧
        (∀ e ∈ declaredTypes (l.flatMap BlockExpr.body), Known items e.base) ∧
        Consistent ds (declarations (l.flatMap BlockExpr.body)))
      fun g t => g.signature = f.signature ∧ Fits items t ∧
        Tracks t (ds ++ declarations (l.flatMap BlockExpr.body)) g.bindings := by
  refine .post (.pre (decides_foldlM
    (C := fun pre => (pre.map BlockExpr.label).Nodup ∧
      (∀ e ∈ declaredTypes (pre.flatMap BlockExpr.body), Known items e.base) ∧
        Consistent ds (declarations (pre.flatMap BlockExpr.body)))
    (I := fun pre g t => (g.signature = f.signature ∧ g.blocks.names = pre.map BlockExpr.label) ∧
      Fits items t ∧ Tracks t (ds ++ declarations (pre.flatMap BlockExpr.body)) g.bindings)
    (fun pre post h => ?_) (fun pre g b hb hpre => .assume ?_) [] f ?_) ?_) ?_
  · rw [List.map_append, List.nodup_append, declaredTypes_append, List.forall_mem_append,
      declarations_append, consistent_append] at h
    exact ⟨h.1.1, h.2.1.1, h.2.2.1⟩
  · rintro ⟨hsignature, hlabels⟩
    have hbody : ∀ e ∈ declaredTypes b.body, Mentions items e.base := fun e he => by
      obtain ⟨x, hx, he⟩ := List.mem_filterMap.mp he
      exact hmention e (List.mem_filterMap.mpr ⟨x, List.mem_flatMap.mpr ⟨b, hb, hx⟩, he⟩)
    have hnodup : g.blocks.names.Nodup := hlabels ▸ hpre.1
    -- What the blocks before declare is known already, so only this block is left to be decided.
    simp only [declaredTypes_append, declarations_append, List.map_append, List.map_singleton,
      List.flatMap_singleton,
      List.forall_mem_append, consistent_append, ← hlabels, nodup_concat hnodup,
      and_iff_right hpre.2.1,
      and_iff_right hpre.2.2, ← List.append_assoc]
    refine .post (decides_block hbody) ?_
    rintro g' t ⟨⟨hsignature', hlabels'⟩, h⟩
    exact ⟨⟨hsignature'.trans hsignature, hlabels'⟩, h⟩
  · exact ⟨List.nodup_nil, fun e he => (by cases he), consistent_nil⟩
  · intro t ht
    exact ⟨⟨rfl, hf⟩, by simpa [declarations] using ht⟩
  · rintro g t ⟨⟨hsignature, -⟩, h⟩
    exact ⟨hsignature, h⟩

structure FunctionFor (t : TypeTable) (s : SignatureExpr) (blocks : List BlockExpr)
    (f : Function) : Prop where
  signature : SignatureFor t s f.signature
  bindings :
    Tracks t (s.params.map ParamExpr.declaration ++ declarations (blocks.flatMap BlockExpr.body))
      f.bindings

theorem decides_function (s : SignatureExpr) (scopes : List ScopeExpr) (blocks : List BlockExpr)
    (hmention : ∀ e ∈ (Item.function s scopes blocks).types, Mentions items e.base) :
    Decides items (Fits items) (function s scopes blocks)
      (CoherentItem items (.function s scopes blocks))
      fun f t => Fits items t ∧ FunctionFor t s blocks f := by
  rw [Item.types, List.forall_mem_append] at hmention
  rw [coherentItem_function]
  refine .iff (.bind (decides_signature s hmention.1) fun _ sig =>
    .bind (decides_scopes rfl scopes) fun _ f =>
      .assume fun hsame =>
        .post (.pre (.frame (decides_blocks (s.params.map ParamExpr.declaration) ?_ hmention.2)
          (stable_signatureFor s sig)) ?_) ?_) ?_
  · rw [hsame.2.2]
    rfl
  · rintro t ⟨⟨hfits, htracks⟩, hsig⟩
    rw [hsame.2.1]
    exact ⟨⟨hfits, htracks⟩, hsig⟩
  · rintro g t ⟨⟨hsignature, hfits, htracks⟩, hsig⟩
    have hsame' : g.signature = sig := hsignature.trans hsame.1
    exact ⟨hfits, hsame' ▸ hsig, htracks⟩
  · refine and_congr_right fun _ => ⟨?_, ?_⟩
    · rintro ⟨hscopes, hlabels, htypes, hconsistent⟩
      exact ⟨htypes, hscopes, hlabels, hconsistent⟩
    · rintro ⟨htypes, hscopes, hlabels, hconsistent⟩
      exact ⟨hscopes, hlabels, htypes, hconsistent⟩

end Bodies

section Programs
variable {f : Function} {p : Program} {names : List String} {n : String}

/-- A reference that a borrow introduces only registers its type. -/
theorem types_declareIntroduced {B : TypeTable → Prop}
    (hB : ∀ u d, d.isNamed = false → B u → B (u.intern d).1) (h : B t) (i : Instruction) :
    B (f.declareIntroduced t i).2 := by
  obtain hsame | ⟨b, source, exclusive, -, -, -, hintroduced⟩ := f.declareIntroduced_cases t i
  · rwa [hsame]
  · rw [hintroduced]
    exact hB t _ rfl h

theorem decides_normalize (f : Function) :
    Decides items (Fits items) (modifyGet fun types => f.normalize types) True
      fun g t => g.signature = f.signature ∧ Fits items t := by
  intro t hfits
  have hkept : t.Grows (f.normalize t).2 ∧ Fits items (f.normalize t).2 := by
    refine Function.normalize_induction (P := fun _ u => t.Grows u ∧ Fits items u)
      (fun g u i hu => types_declareIntroduced (B := fun u => t.Grows u ∧ Fits items u)
        (fun v d hnamed hv => ?_) hu i)
      ⟨.refl t, hfits⟩
    exact ⟨hv.1.trans (TypeTable.intern_unnamed hnamed v).1, hv.2.intern hnamed⟩
  exact .inl ⟨trivial, _, _, rfl, hkept.1, f.signature_normalize t, hkept.2⟩

def HasFunctions (p : Program) (names : List String) : Prop :=
  ∀ n, n ∈ names ↔ n ∈ p.functions.names ∨ n ∈ p.externs.names

theorem HasFunctions.addExtern {s : Signature} (h : HasFunctions p names) (hnew : s.name ∉ names) :
    HasFunctions (p.addExtern s) (names ++ [s.name]) := by
  intro n
  have hnames : (p.addExtern s).externs.names = p.externs.names ++ [s.name] :=
    names_insert_of_new fun hold => hnew ((h _).mpr (.inr hold))
  rw [List.mem_append, h n, hnames, List.mem_append, or_assoc]
  rfl

theorem HasFunctions.addFunction (h : HasFunctions p names) (hnew : f.name ∉ names) :
    HasFunctions (p.addFunction f) (names ++ [f.name]) := by
  intro n
  have hnames : (p.addFunction f).functions.names = p.functions.names ++ [f.name] :=
    names_insert_of_new fun hold => hnew ((h _).mpr (.inl hold))
  rw [List.mem_append, h n, hnames, List.mem_append, or_right_comm]
  rfl

theorem decides_checkUnique (h : HasFunctions p names) {s : Signature} (hname : s.name = n) :
    Decides items A (checkUnique p s) (n ∉ names) fun _ => A := by
  refine .iff (decides_ensure _ _ _) ?_
  rw [h n, ← Registry.contains_iff_mem_names, ← Registry.contains_iff_mem_names, hname]
  simp

theorem signatureNames_concat {pre : List Item} {item : Item} {s : SignatureExpr}
    (h : item.signature? = some s) :
    signatureNames (pre ++ [item]) = signatureNames pre ++ [s.name] := by
  simp [signatureNames, h]

theorem signatureNames_concat_of_none {pre : List Item} {item : Item} (h : item.signature? = none) :
    signatureNames (pre ++ [item]) = signatureNames pre := by
  simp [signatureNames, h]

theorem decides_addItem {pre : List Item} (hpre : (signatureNames pre).Nodup)
    (hp : HasFunctions p (signatureNames pre)) {item : Item} (hitem : item ∈ items) :
    Decides items (Fits items) (addItem p item)
      ((item.signature?.isSome = true → CoherentItem items item) ∧
        (signatureNames (pre ++ [item])).Nodup)
      fun q t => HasFunctions q (signatureNames (pre ++ [item])) ∧ Fits items t := by
  have hmention : ∀ e ∈ item.types, Mentions items e.base := fun e he => ⟨item, hitem, e, he, rfl⟩
  cases item with
  | struct | variant =>
    rw [signatureNames_concat_of_none rfl]
    exact .iff (decides_pure p fun t ht => ⟨hp, ht⟩)
      (iff_of_true trivial ⟨fun h => (by cases h), hpre⟩)
  | external s =>
    rw [signatureNames_concat rfl, nodup_concat hpre, coherentItem_external, addItem]
    refine .iff (.bind (.post (decides_signature s hmention) fun _ _ h => ⟨h.2.name, h.1.1⟩)
      fun _ sig => .assume fun hname =>
      .bind (decides_checkUnique hp hname) fun hnew _ => decides_pure _ fun t ht => ⟨?_, ht⟩) ?_
    · rw [← hname] at hnew ⊢
      exact hp.addExtern hnew
    · simp [Item.signature?]
  | function s scopes blocks =>
    rw [signatureNames_concat rfl, nodup_concat hpre, addItem]
    refine .iff (.bind (.post (decides_function s scopes blocks hmention) fun _ _ h =>
      ⟨h.2.signature.name, h.1⟩) fun _ f =>
        .assume fun hname => .bind (decides_checkUnique hp hname) fun hnew _ =>
          .thenPure (decides_normalize f)
            fun g t ht => ⟨?_, ht.2⟩) ?_
    · have hg : g.name = s.name := (congrArg Signature.name ht.1).trans hname
      rw [← hg] at hnew ⊢
      exact hp.addFunction hnew
    · simp [Item.signature?]

theorem decides_declareTypes :
    Decides items (Lists []) (items.forM declareType) (declaredNames items).Nodup fun _ =>
      Lists items := by
  rw [forM_eq_foldlM]
  refine decides_foldlM (C := fun pre => (declaredNames pre).Nodup) (I := fun pre _ => Lists pre)
    (fun pre post h => ?_)
    (fun pre _ item _ hpre => decides_declareType hpre item) [] () List.nodup_nil
  rw [declaredNames, List.filterMap_append, List.map_append] at h
  exact (List.nodup_append.mp h).1

theorem decides_items :
    Decides items (Fits items) (items.foldlM addItem {})
      ((∀ item ∈ items, item.signature?.isSome = true → CoherentItem items item) ∧
        (signatureNames items).Nodup)
      fun _ => Fits items := by
  refine .post (.pre (decides_foldlM
    (C := fun pre => (∀ item ∈ pre, item.signature?.isSome = true → CoherentItem items item) ∧
      (signatureNames pre).Nodup)
    (I := fun pre p t => HasFunctions p (signatureNames pre) ∧ Fits items t)
    (fun pre post h => ?_) (fun pre p item hitem hpre => .assume fun hp =>
      .iff (decides_addItem hpre.2 hp hitem) ?_) [] {} ?_)
    fun t ht => ⟨?_, ht⟩) fun _ _ h => h.2
  · rw [List.forall_mem_append, signatureNames, List.filterMap_append, List.map_append] at h
    exact ⟨h.1.1, (List.nodup_append.mp h.2).1⟩
  · rw [List.forall_mem_append, List.forall_mem_singleton, and_iff_right hpre.1]
  · exact ⟨fun item hitem => (by cases hitem), List.nodup_nil⟩
  · refine fun n => ⟨fun h => (by cases h), ?_⟩
    rintro (h | h) <;> cases h

/-- A listing gives a program if and only if it is coherent. -/
theorem decides_program :
    Decides items (Lists []) (program items) (Coherent items) fun _ _ => True := by
  refine .iff (.bind decides_declareTypes fun hdistinct _ =>
    .bind (.pre (decides_forM fun item hitem => decides_defineType hdistinct hitem) fun t ht =>
      ht.fits) fun _ _ =>
    .bind decides_items fun _ p => .get fun t _ => decides_pure _ fun _ _ => trivial) ?_
  constructor
  · rintro ⟨htypes, hdeclared, ⟨hsigned, hsignatures⟩, -⟩
    refine ⟨htypes, hsignatures, fun item hitem => ?_⟩
    cases item with
    | struct | variant => exact hdeclared _ hitem rfl
    | external | function => exact hsigned _ hitem rfl
  · intro h
    exact ⟨h.types, fun item hitem _ => h.each item hitem,
      ⟨fun item hitem _ => h.each item hitem, h.signatures⟩, trivial⟩

end Programs

end Build

theorem stopError_eq_at (file : Option String) (scan : Scan) (rest : List Token) :
    ∃ problem span, stopError file scan rest = .at problem span := by
  fun_cases stopError <;> exact ⟨_, _, rfl⟩

theorem parseItems_eq_error {source : String} {file : Option String} {e : Error}
    (h : parseItems source file = .error e) : ∃ problem span, e = .at problem span := by
  obtain ⟨rest, rfl⟩ : ∃ rest, e = stopError file (scan source file) rest := by
    unfold parseItems at h
    dsimp only at h
    split at h
    · exact ⟨_, (Except.error.inj h).symm⟩
    · split at h
      · cases h
      · exact ⟨_, (Except.error.inj h).symm⟩
  exact stopError_eq_at ..

theorem parse_of_items {source : String} {file : Option String} {items : List Item}
    (h : parseItems source file = .ok items) :
    parse source file = ((Build.program items).run {}).map Prod.fst := by
  simp only [parse, h, bind, Except.bind]
  cases (Build.program items).run {} <;> rfl

/-- A listing becomes a program if it is coherent, and is refused if it is not. It is refused at a
place in it, unless it mentions a type that it declares under the name of a builtin one: then the
refusal may be that of the table of types. -/
theorem parse_outcome (source : String) (file : Option String) :
    (∃ items program, parseItems source file = .ok items ∧ Coherent items ∧
      parse source file = .ok program) ∨
    (∀ items, parseItems source file = .ok items → ¬Coherent items) ∧
      ((∃ problem span, parse source file = .error (.at problem span)) ∨
        ∃ items name k, parseItems source file = .ok items ∧ TakesBuiltin items name k ∧
          parse source file = .error (.clash (.registered name k))) := by
  cases hitems : parseItems source file with
  | error e =>
    obtain ⟨problem, span, rfl⟩ := parseItems_eq_error hitems
    exact .inr ⟨fun items h => (by cases h), .inl ⟨problem, span, by rw [parse, hitems]; rfl⟩⟩
  | ok items =>
    rw [parse_of_items hitems]
    rcases Build.decides_program {} Build.lists_empty with
      ⟨hcoherent, program, types, hrun, -⟩ | ⟨hincoherent, e, hrun, hclash⟩
    · exact .inl ⟨items, program, rfl, hcoherent, by rw [hrun]; rfl⟩
    · refine .inr ⟨fun _ h => Except.ok.inj h ▸ hincoherent, ?_⟩
      rw [hrun]
      rcases e with ⟨problem, span⟩ | c
      · exact .inl ⟨problem, span, rfl⟩
      · obtain ⟨name, k, htakes, rfl⟩ := hclash c rfl
        exact .inr ⟨items, name, k, rfl, htakes, rfl⟩

/-- A declared type takes the name of a builtin one, and a parameter needs it. -/
def takenName : String := "struct Int \x7b \x7d fn f(x: Int) \x7b entry: return; \x7d"

/-- It is neither a program nor refused at a place. -/
theorem parse_takenName : parse takenName none = .error (.clash (.registered "Int" .struct)) ∧
    (∀ program, parse takenName none ≠ .ok program) ∧
    ∀ problem span, parse takenName none ≠ .error (.at problem span) := by
  have hclash : parse takenName none = .error (.clash (.registered "Int" .struct)) := by
    decide +kernel
  refine ⟨hclash, fun program h => ?_, fun problem span h => ?_⟩ <;> cases hclash.symm.trans h

end Ownership.Listing
