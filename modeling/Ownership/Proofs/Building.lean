import Ownership.Proofs.Coherence

/-! # Work that decides a condition

Work on a table of types either passes, with types registered, or stops with an error. What makes it
pass is said of the listing, and is found for the whole from its parts. Types are registered first
by their names, so that the table fits the listing from then on.
-/
namespace Ownership.Listing.Build
variable {α β σ : Type} {items : List Item} {A B : TypeTable → Prop} {P P' : Prop} {x : Build α}
    {Q : α → TypeTable → Prop}

/-- From a table of which `A` holds, the work passes if and only if `P` is true, and then `Q` holds
of its result and of the table. Otherwise it stops with an error, where a clash of names is one that
the listing has. -/
def Decides (items : List Item) (A : TypeTable → Prop) (x : Build α) (P : Prop)
    (Q : α → TypeTable → Prop) : Prop :=
  ∀ t, A t → (P ∧ ∃ a u, x.run t = .ok (a, u) ∧ t.Grows u ∧ Q a u) ∨
    (¬P ∧ ∃ e, x.run t = .error e ∧ ∀ c, e = .clash c → ∃ name k, TakesBuiltin items name k ∧
      c = .registered name k)

theorem decides_pure (a : α) (h : ∀ t, A t → Q a t) : Decides items A (pure a) True Q := fun t ht =>
  .inl ⟨trivial, a, t, rfl, .refl t, h t ht⟩

theorem decides_ensure (condition : Bool) (problem : Problem) (span : Span) :
    Decides items A (ensure condition problem span) (condition = true) fun _ => A := by
  intro t ht
  cases condition with
  | true => exact .inl ⟨rfl, (), t, rfl, .refl t, ht⟩
  | false => exact .inr ⟨Bool.false_ne_true, _, rfl, fun c hc => by cases hc⟩

namespace Decides

theorem bind {f : α → Build β} {R : β → TypeTable → Prop} (hx : Decides items A x P Q)
    (hf : P → ∀ a, Decides items (Q a) (f a) P' R) : Decides items A (x >>= f) (P ∧ P') R := by
  intro t ht
  rcases hx t ht with ⟨hP, a, u, hrun, hgrows, hQ⟩ | ⟨hP, e, hrun, he⟩
  · have hbind : (x >>= f).run t = (f a).run u := by
      rw [StateT.run_bind, hrun]
      rfl
    rw [hbind]
    rcases hf hP a u hQ with ⟨hP', b, v, hrun', hgrows', hR⟩ | ⟨hP', h⟩
    · exact .inl ⟨⟨hP, hP'⟩, b, v, hrun', hgrows.trans hgrows', hR⟩
    · exact .inr ⟨fun h => hP' h.2, h⟩
  · refine .inr ⟨fun h => hP h.1, e, ?_, he⟩
    rw [StateT.run_bind, hrun]
    rfl

theorem pre {A' : TypeTable → Prop} (h : Decides items A x P Q) (hA : ∀ t, A' t → A t) :
    Decides items A' x P Q :=
  fun t ht => h t (hA t ht)

theorem post {Q' : α → TypeTable → Prop} (h : Decides items A x P Q) (hQ : ∀ a t, Q a t → Q' a t) :
    Decides items A x P Q' := by
  intro t ht
  rcases h t ht with ⟨hP, a, u, hrun, hgrows, hu⟩ | h
  · exact .inl ⟨hP, a, u, hrun, hgrows, hQ a u hu⟩
  · exact .inr h

theorem iff (h : Decides items A x P Q) (hP : P ↔ P') : Decides items A x P' Q := propext hP ▸ h

theorem iffOn (h : Decides items A x P Q) (hP : ∀ t, A t → (P ↔ P')) : Decides items A x P' Q :=
  fun t ht => h.iff (hP t ht) t ht

theorem assume {F : Prop} (h : F → Decides items A x P Q) :
    Decides items (fun t => F ∧ A t) x P Q :=
  fun t ht => h ht.1 t ht.2

theorem thenPure {g : α → β} {R : β → TypeTable → Prop} (h : Decides items A x P Q)
    (hR : ∀ a t, Q a t → R (g a) t) : Decides items A (x >>= fun a => pure (g a)) P R :=
  (h.bind fun _ a => decides_pure (g a) (hR a)).iff (and_iff_left trivial)

theorem discard {R : TypeTable → Prop} (h : Decides items A x P Q) (hR : ∀ a t, Q a t → R t) :
    Decides items A (Functor.discard x) P fun _ => R :=
  h.thenPure hR

/-- Work that first looks at the table. -/
theorem get {f : TypeTable → Build β} {R : β → TypeTable → Prop}
    (h : ∀ t, A t → Decides items (· = t) (f t) P R) : Decides items A (MonadState.get >>= f) P R :=
  fun t ht => h t ht t rfl

end Decides

def Stable (A : TypeTable → Prop) : Prop := ∀ t u, t.Grows u → A t → A u

theorem Decides.frame (h : Decides items A x P Q) (hB : Stable B) :
    Decides items (fun t => A t ∧ B t) x P fun a t => Q a t ∧ B t := by
  rintro t ⟨ht, htB⟩
  rcases h t ht with ⟨hP, a, u, hrun, hgrows, hu⟩ | h
  · exact .inl ⟨hP, a, u, hrun, hgrows, hu, hB t u hgrows htB⟩
  · exact .inr h

theorem stable_denotes (e : TypeExpr) (id : TypeId) :
    Stable fun t => Denotes t e id := fun _ _ hgrows h => h.mono hgrows

theorem stable_forall₂ {D : α → β → TypeTable → Prop} (hD : ∀ a b, Stable (D a b)) {l : List α}
    {l' : List β} : Stable fun t => List.Forall₂ (fun a b => D a b t) l l' :=
  fun t u hgrows h => h.imp fun a b hab => hD a b t u hgrows hab

theorem forall_mem_of_forall₂ {D : α → β → Prop} {E : β → Prop} (hE : ∀ a b, D a b → E b)
    {l : List α} {l' : List β} (h : List.Forall₂ D l l') : ∀ b ∈ l', E b := by
  induction h with
  | nil => exact fun b hb => by cases hb
  | cons hab _ ih => exact List.forall_mem_cons.mpr ⟨hE _ _ hab, ih⟩

section Loops
variable {l : List α}

theorem nodup_concat {a : α} (hl : l.Nodup) : (l ++ [a]).Nodup ↔ a ∉ l := by
  rw [List.nodup_append_comm, List.singleton_append, List.nodup_cons, and_iff_left hl]

/-- A loop decides `C` of its whole list, if from a list of which `C` holds each step decides it of
one element more. -/
theorem decides_foldlM {f : σ → α → Build σ} {C : List α → Prop} {I : List α → σ → TypeTable → Prop}
    (hC : ∀ pre post, C (pre ++ post) → C pre) (hstep : ∀ pre s, ∀ a ∈ l, C pre →
      Decides items (I pre s) (f s a) (C (pre ++ [a])) (I (pre ++ [a])))
    (pre : List α) (s : σ) (hpre : C pre) :
    Decides items (I pre s) (l.foldlM f s) (C (pre ++ l)) (I (pre ++ l)) := by
  induction l generalizing pre s with
  | nil =>
    rw [List.append_nil]
    exact (decides_pure s fun t ht => ht).iff (iff_of_true trivial hpre)
  | cons a l ih =>
    obtain ⟨hfirst, hrest⟩ := List.forall_mem_cons.mp (fun b hb pre s => hstep pre s b hb)
    rw [List.foldlM_cons, List.append_cons]
    -- If the step stops the loop then `C` fails of one element more, and so of the whole list.
    refine ((hfirst pre s hpre).bind fun hnext s' =>
      ih (fun pre s b hb => hrest b hb pre s) (pre ++ [a]) s' hnext).iff ?_
    exact and_iff_right_of_imp (hC _ _)

theorem forM_eq_foldlM (f : α → Build Unit) (l : List α) : l.forM f = l.foldlM (fun _ => f) () := by
  induction l with
  | nil => rfl
  | cons a l ih => rw [List.forM, List.foldlM_cons, ih]

theorem decides_forM {f : α → Build Unit} {K : α → Prop}
    (hf : ∀ a ∈ l, Decides items A (f a) (K a) fun _ => A) :
    Decides items A (l.forM f) (∀ a ∈ l, K a) fun _ => A := by
  rw [forM_eq_foldlM]
  refine decides_foldlM (C := fun l => ∀ a ∈ l, K a) (I := fun _ _ => A)
    (fun pre post h a ha => h a (List.mem_append_left _ ha))
    (fun pre _ a ha hpre => (hf a ha).iff ?_) [] () (by simp)
  rw [List.forall_mem_append, List.forall_mem_singleton, and_iff_right hpre]

theorem decides_mapM {f : α → Build β} {K : α → Prop} {D : α → β → TypeTable → Prop}
    (hD : ∀ a b, Stable (D a b))
    (hf : ∀ a ∈ l, Decides items A (f a) (K a) fun b t => A t ∧ D a b t) :
    Decides items A (l.mapM f) (∀ a ∈ l, K a) fun bs t =>
      A t ∧ List.Forall₂ (fun a b => D a b t) l bs := by
  induction l with
  | nil => exact (decides_pure [] fun t ht => ⟨ht, .nil⟩).iff (by simp)
  | cons a l ih =>
    obtain ⟨hfirst, hrest⟩ := List.forall_mem_cons.mp hf
    rw [List.mapM_cons]
    refine (hfirst.bind fun _ b => ((ih hrest).frame (hD a b)).thenPure ?_).iff
      List.forall_mem_cons.symm
    rintro bs t ⟨⟨ht, hbs⟩, hb⟩
    exact ⟨ht, .cons hb hbs⟩

theorem decides_optionMapM {f : α → Build β} {K : α → Prop} {D : α → β → TypeTable → Prop}
    {o : Option α} (hf : ∀ a ∈ o, Decides items A (f a) (K a) fun b t => A t ∧ D a b t) :
    Decides items A (o.mapM f) (∀ a ∈ o, K a) fun r t =>
      A t ∧ Option.Rel (fun a b => D a b t) o r := by
  cases o with
  | none => exact .iff (decides_pure none fun t ht => ⟨ht, .none⟩) (by simp)
  | some a => exact .iff (.thenPure (hf a rfl) fun b t ht => ⟨ht.1, .some ht.2⟩) (by simp)

end Loops

section Registering
variable {f : TypeTable → Except NameClash (TypeTable × TypeId)} {t u : TypeTable} {id : TypeId}

theorem run_named_of_ok (h : f t = .ok (u, id)) : (named f).run t = .ok (id, u) := by
  simp only [named, StateT.run_bind, StateT.run_get, pure_bind, h]
  rfl

theorem run_named_of_error {c : NameClash} (h : f t = .error c) :
    (named f).run t = .error (.clash c) := by
  simp only [named, StateT.run_bind, StateT.run_get, pure_bind, h]
  rfl

theorem decides_named {r : TypeTable × TypeId} (h : f t = .ok r) (hgrows : t.Grows r.1) :
    Decides items (· = t) (named f) True fun _ u => u = r.1 := by
  rintro _ rfl
  exact .inl ⟨trivial, r.2, r.1, run_named_of_ok h, hgrows, rfl⟩

end Registering

/-- A builtin type is there unless a declared one has its name. -/
theorem decides_builtin {d : TypeDef} (hnamed : d.isNamed = true)
    (hbuiltin : builtinKind? d.name = some d.kind) (houtline : d.outline = d)
    (hmention : Mentions items d.name) :
    Decides items (Fits items) (named fun t => t.internNamed d) (Known items d.name)
      fun id t => Fits items t ∧ ∃ e, t.Shows id e ∧ e.isNamed = true ∧ e.name = d.name := by
  intro t hfits
  cases hlookup : t.lookup? d.name with
  | none =>
    have hnew := TypeTable.lookup?_eq_none.mp hlookup
    have hdeclared : declaredKind? items d.name = none :=
      Option.eq_none_iff_forall_ne_some.mpr fun k hk => hnew k (hfits.declared _ _ hk)
    have hrun : t.internNamed d = .ok (t.push d) := by rw [TypeTable.internNamed, hlookup]
    refine .inl ⟨by simp [Known, hbuiltin, hdeclared], _, _, run_named_of_ok hrun, t.grows_push d,
      hfits.push hnew hdeclared hbuiltin hnamed, d, ?_, hnamed, rfl⟩
    have hshows := t.shows_push d
    rwa [houtline] at hshows
  | some id =>
    obtain ⟨e, he, hnamed', hname⟩ := TypeTable.lookup?_eq_some hlookup
    have hkind := hname ▸ TypeTable.hasKind_of_fetch he hnamed'
    have hget := TypeTable.get?_eq_some.mpr he
    rcases hfits.kinds _ _ hkind with hdeclared | ⟨hdeclared, hsame⟩
    · -- The name belongs to a declared type: this is the one clash that there is.
      have hne : e.kind ≠ d.kind := kind_ne_of_builtin hdeclared hbuiltin
      have hrun : t.internNamed d = .error (.registered d.name e.kind) := by
        rw [TypeTable.internNamed, hlookup]
        simp only [hget, if_neg hne]
      refine .inr ⟨by simp [Known, hbuiltin, hdeclared], _, run_named_of_error hrun, fun c hc => ?_⟩
      cases hc
      exact ⟨d.name, e.kind, ⟨by rw [hbuiltin]; rfl, hdeclared, hmention⟩, rfl⟩
    · have heq : e.kind = d.kind := Option.some.inj (hsame.symm.trans hbuiltin)
      have hrun : t.internNamed d = .ok (t, id) := by
        rw [TypeTable.internNamed, hlookup]
        simp only [hget, if_pos heq]
      exact .inl ⟨by simp [Known, hbuiltin, hdeclared], _, _, run_named_of_ok hrun, .refl t,
        hfits, e.outline, TypeTable.shows_of_fetch he, by simpa using hnamed', by simpa using hname⟩

/-- A type that is not builtin is there if it is declared. -/
theorem decides_declared {w : Word} (hbuiltin : builtinKind? w.text = none) :
    Decides items (Fits items)
      (do
        match (← get).lookup? w.text with
        | some id => return id
        | none => reject (.unknownType w.text) w.span)
      (Known items w.text) fun id t => Fits items t ∧ Denotes t (.named w) id := by
  intro t hfits
  rw [StateT.run_bind, StateT.run_get, pure_bind]
  cases hlookup : t.lookup? w.text with
  | none =>
    have hdeclared : declaredKind? items w.text = none :=
      Option.eq_none_iff_forall_ne_some.mpr fun k hk =>
        TypeTable.lookup?_eq_none.mp hlookup k (hfits.declared _ _ hk)
    refine .inr ⟨by simp [Known, hbuiltin, hdeclared], _, rfl, fun c hc => by cases hc⟩
  | some id =>
    obtain ⟨d, hd, hnamed, hname⟩ := TypeTable.lookup?_eq_some hlookup
    have hkind := hname ▸ TypeTable.hasKind_of_fetch hd hnamed
    have hdeclared : declaredKind? items w.text = some d.kind := by
      rcases hfits.kinds _ _ hkind with hdeclared | ⟨-, hsame⟩
      · exact hdeclared
      · cases hbuiltin.symm.trans hsame
    exact .inl ⟨by simp [Known, hbuiltin, hdeclared], id, t, rfl, .refl t, hfits, d.outline,
      TypeTable.shows_of_fetch hd, by simpa using hnamed, by simpa using hname⟩

theorem decides_interned {d : TypeDef} (hnamed : d.isNamed = false) :
    Decides items (Fits items) (interned fun t => t.intern d) True fun id t =>
      Fits items t ∧ t.Shows id d := by
  intro t hfits
  obtain ⟨hgrows, hshows, -⟩ := TypeTable.intern_unnamed hnamed t
  exact .inl ⟨trivial, _, _, rfl, hgrows, hfits.intern hnamed, hshows⟩

theorem decides_typeId (e : TypeExpr) (hmention : Mentions items e.base) :
    Decides items (Fits items) (typeId e) (Known items e.base) fun id t =>
      Fits items t ∧ Denotes t e id := by
  induction e with
  | named w =>
    obtain ⟨text, span⟩ := w
    rw [typeId]
    split
    next hstring =>
      subst hstring
      exact decides_builtin (d := .string) rfl rfl rfl hmention
    next hstring =>
    split
    next hunknown =>
      subst hunknown
      exact decides_builtin (d := .unknown) rfl rfl rfl hmention
    next hunknown =>
    split
    next hscalar =>
      have hbuiltin : builtinKind? text = some .scalar := by
        rw [builtinKind?, if_neg hstring, if_neg hunknown, if_pos hscalar]
      exact decides_builtin (d := .scalar text) rfl hbuiltin rfl hmention
    next hscalar =>
      exact decides_declared (by rw [builtinKind?, if_neg hstring, if_neg hunknown, if_neg hscalar])
  | array e ih =>
    refine ((ih hmention).bind fun _ id => ?_).iff (and_iff_left trivial)
    refine ((decides_interned (d := .array id) rfl).frame (stable_denotes e id)).post ?_
    rintro id' t ⟨⟨hfits, hshows⟩, hdenotes⟩
    exact ⟨hfits, id, hshows, hdenotes⟩
  | ref lifetime exclusive e ih =>
    refine ((ih hmention).bind fun _ id => ?_).iff (and_iff_left trivial)
    refine ((decides_interned (d := .ref id exclusive lifetime) rfl).frame
      (stable_denotes e id)).post ?_
    rintro id' t ⟨⟨hfits, hshows⟩, hdenotes⟩
    exact ⟨hfits, id, hshows, hdenotes⟩

section Declaring
variable {pre : List Item} {t : TypeTable} {item : Item} {d : TypeDef}

structure Lists (items : List Item) (t : TypeTable) : Prop where
  distinct : t.Distinct
  kinds : ∀ name k, t.HasKind name k ↔ declaredKind? items name = some k

theorem Lists.fits (h : Lists items t) : Fits items t :=
  ⟨h.distinct, fun name k => (h.kinds name k).mpr, fun name k hk => .inl ((h.kinds name k).mp hk)⟩

theorem lists_empty : Lists [] {} := by
  refine ⟨List.nodup_nil, fun name k => ⟨?_, fun h => by cases h⟩⟩
  rintro ⟨d, hd, -⟩
  cases hd

theorem Lists.lookup?_isNone (h : Lists pre t) (name : String) :
    (t.lookup? name).isNone = true ↔ name ∉ declaredNames pre := by
  rw [Option.isNone_iff_eq_none, TypeTable.lookup?_eq_none, ← declaredKind?_eq_none,
    Option.eq_none_iff_forall_ne_some]
  simp only [h.kinds, ne_eq]

theorem Lists.push (h : Lists pre t) (hdeclared : item.declared? = some (d.name, d.kind))
    (hnamed : d.isNamed = true) (hnew : t.lookup? d.name = none) :
    Lists (pre ++ [item]) (t.push d).1 := by
  have hfree := TypeTable.lookup?_eq_none.mp hnew
  refine ⟨h.distinct.push (TypeTable.key_ne_of_not_hasKind hnamed hfree), fun name k => ?_⟩
  rw [TypeTable.hasKind_push, h.kinds, declaredKind?_concat hdeclared]
  by_cases hname : d.name = name
  · subst hname
    have hnone : declaredKind? pre d.name = none :=
      Option.eq_none_iff_forall_ne_some.mpr fun k hk => hfree k ((h.kinds _ k).mpr hk)
    simp [hnone, hnamed]
  · simp [hname]

/-- Registering the name of a declared type decides that it is new. -/
theorem decides_declare {w : Word} {f : TypeTable → Except NameClash (TypeTable × TypeId)}
    (hf : ∀ t, t.lookup? w.text = none → f t = .ok (t.push d))
    (hdeclared : item.declared? = some (d.name, d.kind))
    (hname : d.name = w.text) (hnamed : d.isNamed = true) (hpre : (declaredNames pre).Nodup) :
    Decides items (Lists pre)
      (do
        ensure ((← get).lookup? w.text).isNone (.duplicateType w.text) w.span
        discard (named f))
      (declaredNames (pre ++ [item])).Nodup fun _ => Lists (pre ++ [item]) := by
  refine Decides.get fun t ht => ((decides_ensure _ _ _).bind fun hnew _ =>
    (decides_named (hf t (Option.isNone_iff_eq_none.mp hnew)) (t.grows_push d)).discard ?_).iff ?_
  · rintro a _ rfl
    exact ht.push hdeclared hnamed (hname ▸ Option.isNone_iff_eq_none.mp hnew)
  · have hnames : declaredNames (pre ++ [item]) = declaredNames pre ++ [w.text] := by
      simp [declaredNames, hdeclared, hname]
    rw [and_iff_left trivial, ht.lookup?_isNone, hnames, nodup_concat hpre]

theorem decides_declareType (hpre : (declaredNames pre).Nodup) (item : Item) :
    Decides items (Lists pre) (declareType item) (declaredNames (pre ++ [item])).Nodup fun _ =>
      Lists (pre ++ [item]) := by
  cases item with
  | struct w finalizer fields =>
    refine decides_declare (d := .struct w.text [] false) (fun t ht => ?_) rfl rfl rfl hpre
    rw [TypeTable.declareStruct, ht]
  | variant w arms =>
    refine decides_declare (d := .variant w.text []) (fun t ht => ?_) rfl rfl rfl hpre
    rw [TypeTable.declareVariant, TypeTable.internNamed]
    exact ht ▸ rfl
  | external | function =>
    refine (decides_pure () fun t ht => ⟨ht.distinct, fun name k => ?_⟩).iff
      (iff_of_true trivial ?_)
    · simpa [declaredNames, List.filterMap_cons, Item.declared?] using hpre
    · simpa [declaredKind?, Item.declared?] using ht.kinds name k

end Declaring

section Defining
variable {seen names : List String} {n : String} {d : TypeDef} {t : TypeTable}

def Fresh (seen names : List String) : Prop := names.Nodup ∧ ∀ n ∈ names, n ∉ seen

theorem fresh_cons : Fresh seen (n :: names) ↔ n ∉ seen ∧ Fresh (n :: seen) names := by
  simp only [Fresh, List.nodup_cons, List.mem_cons, not_or]
  grind

theorem fresh_nil : Fresh [] names ↔ names.Nodup := and_iff_left fun _ _ h => by cases h

def FieldsFor (t : TypeTable) : List (Word × TypeExpr) → List (String × TypeId) → Prop :=
  List.Forall₂ fun f m => m.1 = f.1.text ∧ Denotes t f.2 m.2

def ArmsFor (t : TypeTable) : List (Word × List TypeExpr) → List (String × List TypeId) → Prop :=
  List.Forall₂ fun a c => c.1 = a.1.text ∧ List.Forall₂ (Denotes t) a.2 c.2

theorem decides_fields (struct : String) {l : List (Word × TypeExpr)}
    (hmention : ∀ f ∈ l, Mentions items f.2.base) (seen : List String) :
    Decides items (Fits items) (fields struct l seen)
      (Fresh seen (l.map fun f => f.1.text) ∧ ∀ f ∈ l, Known items f.2.base)
      fun ms t => Fits items t ∧ FieldsFor t l ms := by
  induction l generalizing seen with
  | nil => exact .iff (decides_pure [] fun t ht => ⟨ht, .nil⟩) (by simp [Fresh])
  | cons f l ih =>
    obtain ⟨w, e⟩ := f
    obtain ⟨hfirst, hrest⟩ := List.forall_mem_cons.mp hmention
    rw [fields]
    refine .iff (.bind (decides_ensure _ _ _) fun _ _ => .bind (decides_typeId e hfirst) fun _ id =>
      .thenPure (.frame (ih hrest _) (stable_denotes e id)) ?_) ?_
    · rintro ms t ⟨⟨hfits, hms⟩, hdenotes⟩
      exact ⟨hfits, .cons ⟨rfl, hdenotes⟩ hms⟩
    · rw [List.map_cons, fresh_cons, List.forall_mem_cons]
      simp [and_assoc, and_left_comm]

theorem decides_arms (variant : String) {l : List (Word × List TypeExpr)}
    (hmention : ∀ a ∈ l, ∀ e ∈ a.2, Mentions items e.base) (seen : List String) :
    Decides items (Fits items) (arms variant l seen)
      (Fresh seen (l.map fun a => a.1.text) ∧ ∀ a ∈ l, ∀ e ∈ a.2, Known items e.base)
      fun cs t => Fits items t ∧ ArmsFor t l cs := by
  induction l generalizing seen with
  | nil => exact .iff (decides_pure [] fun t ht => ⟨ht, .nil⟩) (by simp [Fresh])
  | cons a l ih =>
    obtain ⟨w, es⟩ := a
    obtain ⟨hfirst, hrest⟩ := List.forall_mem_cons.mp hmention
    have hpayload : Decides items (Fits items) (es.mapM typeId) (∀ e ∈ es, Known items e.base) _ :=
      decides_mapM stable_denotes fun e he => decides_typeId e (hfirst e he)
    rw [arms]
    refine .iff (.bind (decides_ensure _ _ _) fun _ _ => .bind hpayload fun _ ids =>
      .thenPure (.frame (ih hrest _) (stable_forall₂ stable_denotes)) ?_) ?_
    · rintro cs t ⟨⟨hfits, hcs⟩, hpayload⟩
      exact ⟨hfits, .cons ⟨rfl, hpayload⟩ hcs⟩
    · rw [List.map_cons, fresh_cons, List.forall_mem_cons]
      simp [and_assoc, and_left_comm]

/-- A declared type is in the table under its name, before it has members and afterwards. -/
theorem Fits.lookup (hfits : Fits items t) (hnamed : d.isNamed = true)
    (hdeclared : declaredKind? items d.name = some d.kind) :
    ∃ id e, t.lookup? d.name = some id ∧ t.get? id = some e ∧ e.kind = d.kind ∧
      t.Shows id d.outline := by
  have hkind := hfits.declared _ _ hdeclared
  cases hlookup : t.lookup? d.name with
  | none => exact absurd hkind (TypeTable.lookup?_eq_none.mp hlookup _)
  | some id =>
    obtain ⟨e, he, hnamed', hname⟩ := TypeTable.lookup?_eq_some hlookup
    have hsame : e.kind = d.kind :=
      (hname ▸ TypeTable.hasKind_of_fetch he hnamed').unique hfits.distinct hkind
    exact ⟨id, e, rfl, TypeTable.get?_eq_some.mpr he, hsame,
      TypeDef.outline_eq hnamed hsame hname ▸ TypeTable.shows_of_fetch he⟩

/-- Giving a declared type its members does not fail. -/
theorem decides_define {f : TypeTable → Except NameClash (TypeTable × TypeId)}
    (hnamed : d.isNamed = true) (hdeclared : declaredKind? items d.name = some d.kind)
    (hf : ∀ t id e, t.lookup? d.name = some id → t.get? id = some e → e.kind = d.kind →
      f t = .ok (t.redefine id d, id)) :
    Decides items (Fits items) (named f) True fun _ => Fits items := by
  intro t hfits
  obtain ⟨id, e, hid, he, hkind, hshows⟩ := Fits.lookup hfits hnamed hdeclared
  have houtlines := TypeTable.outlines_redefine hshows
  exact .inl ⟨trivial, _, _, run_named_of_ok (hf t id e hid he hkind), .of_outlines houtlines,
    hfits.of_outlines houtlines⟩

theorem decides_defineType (hdistinct : (declaredNames items).Nodup) {item : Item}
    (hitem : item ∈ items) :
    Decides items (Fits items) (defineType item)
      (item.declared?.isSome = true → CoherentItem items item) fun _ => Fits items := by
  have hmention : ∀ e ∈ item.types, Mentions items e.base := fun e he => ⟨item, hitem, e, he, rfl⟩
  cases item with
  | struct w finalizer members =>
    have hdeclared := declaredKind?_of_mem hdistinct hitem rfl
    have hfields := decides_fields w.text (fun f hf => hmention f.2 (List.mem_map_of_mem hf)) []
    refine .iff (.bind (.post hfields fun _ _ h => h.1) fun _ ms => .discard (decides_define
      (d := .struct w.text ms finalizer) rfl hdeclared fun _ _ _ => TypeTable.defineStruct_eq)
      fun _ _ h => h) ?_
    have hsome : (Item.struct w finalizer members).declared?.isSome = true := rfl
    rw [and_iff_left trivial, fresh_nil, imp_iff_right hsome,
      coherentItem_iff_of_declared hsome, Item.types, List.forall_mem_map]
    rfl
  | variant w cases =>
    have hdeclared := declaredKind?_of_mem hdistinct hitem rfl
    have harms :=
      decides_arms w.text (fun a ha e he => hmention e (List.mem_flatMap.mpr ⟨a, ha, he⟩)) []
    refine .iff (.bind (.post harms fun _ _ h => h.1) fun _ cs => .discard (decides_define
      (d := .variant w.text cs) rfl hdeclared fun _ _ _ => TypeTable.defineVariant_eq)
      fun _ _ h => h) ?_
    have hsome : (Item.variant w cases).declared?.isSome = true := rfl
    rw [and_iff_left trivial, fresh_nil, imp_iff_right hsome, coherentItem_iff_of_declared hsome]
    exact and_congr_right fun _ => List.forall_mem_flatMap.symm
  | external | function =>
    exact .iff (decides_pure () fun t ht => ht) (iff_of_true trivial fun h => by cases h)

end Defining

end Ownership.Listing.Build
