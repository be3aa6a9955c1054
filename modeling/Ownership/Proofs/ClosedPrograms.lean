import Ownership.Proofs.TypeOrder

/-! # Programs that are closed

A listing that becomes a program has all its types in the table, each as it is declared. Its
functions are those that are written, with bindings for their parameters, for what they declare and
for the references that their borrows introduce. All of these have types of the table.
-/
namespace Ownership

namespace Listing
namespace Build
variable {items pre : List Item} {item item' : Item} {t u : TypeTable} {id : TypeId} {d : TypeDef}

section Types

def Declares (t : TypeTable) : Item → TypeDef → Prop
  | .struct w finalizer members, d => ∃ ms, d = .struct w.text ms finalizer ∧ FieldsFor t members ms
  | .variant w cases, d => ∃ cs, d = .variant w.text cs ∧ ArmsFor t cases cs
  | _, _ => False

def HasDeclared (t : TypeTable) (item : Item) : Prop :=
  ∀ name k, item.declared? = some (name, k) → ∃ id d, t.lookup? name = some id ∧
    t.fetch id = .ok d ∧ Declares t item d

theorem Declares.mono (hgrows : t.Grows u) (h : Declares t item d) : Declares u item d := by
  cases item with
  | struct w finalizer members =>
    obtain ⟨ms, hd, hms⟩ := h
    exact ⟨ms, hd, hms.imp fun _ _ hm => ⟨hm.1, hm.2.mono hgrows⟩⟩
  | variant w cases =>
    obtain ⟨cs, hd, hcs⟩ := h
    exact ⟨cs, hd, hcs.imp fun _ _ hc => ⟨hc.1, hc.2.imp fun _ _ he => he.mono hgrows⟩⟩
  | external | function => exact h.elim

theorem Declares.declared? (h : Declares t item d) :
    item.declared? = some (d.name, d.kind) ∧ d.isNamed = true := by
  cases item with
  | struct w finalizer members =>
    obtain ⟨ms, rfl, -⟩ := h
    exact ⟨rfl, rfl⟩
  | variant w cases =>
    obtain ⟨cs, rfl, -⟩ := h
    exact ⟨rfl, rfl⟩
  | external | function => exact h.elim

theorem Declares.members (h : Declares t item d) : ∀ m ∈ d.members, t.Defines m := by
  cases item with
  | struct w finalizer members =>
    obtain ⟨ms, rfl, hms⟩ := h
    rw [TypeDef.members, List.forall_mem_map]
    exact forall_mem_of_forall₂ (fun _ _ hm => hm.2.defines) hms
  | variant w cases =>
    obtain ⟨cs, rfl, hcs⟩ := h
    rw [TypeDef.members, List.forall_mem_flatMap]
    exact forall_mem_of_forall₂
      (fun _ _ hc => forall_mem_of_forall₂ (fun _ _ he => he.defines) hc.2) hcs
  | external | function => exact h.elim

/-- A declared type stays what it is, if it has the same members in the table that comes later. -/
theorem HasDeclared.mono (hgrows : t.Grows u) (hu : u.Distinct)
    (hkeep : ∀ id d, t.fetch id = .ok d → item.declared? = some (d.name, d.kind) →
      u.fetch id = .ok d)
    (h : HasDeclared t item) : HasDeclared u item := by
  intro name k hitem
  obtain ⟨id, d, -, hd, hdeclares⟩ := h name k hitem
  obtain ⟨hdeclared, hnamed⟩ := hdeclares.declared?
  have hu' := hkeep id d hd hdeclared
  obtain ⟨rfl, -⟩ := Prod.mk.inj (Option.some.inj (hitem.symm.trans hdeclared))
  exact ⟨id, d, hu.lookup? hu' hnamed, hu', hdeclares.mono hgrows⟩

theorem define_inv {f : TypeTable → Except NameClash (TypeTable × TypeId)} (hfits : Fits items t)
    (hnamed : d.isNamed = true) (hdeclared : declaredKind? items d.name = some d.kind)
    (hf : ∀ t id e, t.lookup? d.name = some id → t.get? id = some e → e.kind = d.kind →
      f t = .ok (t.redefine id d, id))
    {a : Unit} (h : (Functor.discard (named f)).run t = .ok (a, u)) :
    ∃ id, t.Shows id d.outline ∧ u = t.redefine id d := by
  obtain ⟨id', h⟩ := discard_inv h
  obtain ⟨id, e, hid, he, hkind, hshows⟩ := Fits.lookup hfits hnamed hdeclared
  cases (named_inv h).symm.trans (hf t id e hid he hkind)
  exact ⟨_, hshows, rfl⟩

/-- What defining a type comes to: its members are registered, and then put in. -/
theorem defineType_inv (hdistinct : (declaredNames items).Nodup) (hitem : item ∈ items)
    (hfits : Fits items t) {a : Unit} (h : (defineType item).run t = .ok (a, u)) :
    item.declared? = none ∧ u = t ∨
    ∃ v id d, t.Continues v ∧ Fits items v ∧ Declares v item d ∧ v.Shows id d.outline ∧
      u = v.redefine id d := by
  have hmention : ∀ e ∈ item.types, Mentions items e.base := fun e he => ⟨item, hitem, e, he, rfl⟩
  cases item with
  | struct w finalizer members =>
    obtain ⟨ms, v, hms, h⟩ := bind_inv h
    obtain ⟨-, hfits, hfields⟩ :=
      (decides_fields w.text (fun f hf => hmention f.2 (List.mem_map_of_mem hf)) []).of_run hfits
        hms
    obtain ⟨id, hshows, rfl⟩ := define_inv (d := .struct w.text ms finalizer) hfits rfl
      (declaredKind?_of_mem hdistinct hitem rfl) (fun _ _ _ => TypeTable.defineStruct_eq) h
    exact .inr ⟨v, id, _, continuing_fields _ _ _ t ms v hms, hfits, ⟨ms, rfl, hfields⟩,
      hshows, rfl⟩
  | variant w cases =>
    obtain ⟨cs, v, hcs, h⟩ := bind_inv h
    obtain ⟨-, hfits, harms⟩ :=
      (decides_arms w.text (fun a ha e he => hmention e (List.mem_flatMap.mpr ⟨a, ha, he⟩))
        []).of_run hfits hcs
    obtain ⟨id, hshows, rfl⟩ := define_inv (d := .variant w.text cs) hfits rfl
      (declaredKind?_of_mem hdistinct hitem rfl) (fun _ _ _ => TypeTable.defineVariant_eq) h
    exact .inr ⟨v, id, _, continuing_arms _ _ _ t cs v hcs, hfits, ⟨cs, rfl, harms⟩, hshows, rfl⟩
  | external | function =>
    cases h
    exact .inl ⟨rfl, rfl⟩

structure Filled (items pre : List Item) (t : TypeTable) : Prop where
  fits : Fits items t
  ordered : t.Ordered
  declared : ∀ item ∈ pre, HasDeclared t item

theorem Filled.of_continues (h : Filled items pre t) (hcontinues : t.Continues u)
    (hfits : Fits items u) : Filled items pre u where
  fits := hfits
  ordered := hcontinues.ordered h.ordered
  declared item hitem :=
    (h.declared item hitem).mono hcontinues.keeps.grows hfits.distinct fun id d hd _ =>
      hcontinues.keeps id d hd

/-- A type may get its members if no item before has declared it. -/
theorem Filled.redefine (h : Filled items pre t) (hdeclares : Declares t item d)
    (hshows : t.Shows id d.outline) (hnew : d.name ∉ declaredNames pre) :
    Filled items (pre ++ [item]) (t.redefine id d) := by
  obtain ⟨hdeclared, hnamed⟩ := hdeclares.declared?
  have hid := hshows.defines
  have houtlines := TypeTable.outlines_redefine hshows
  have hfits := h.fits.of_outlines houtlines
  have hself : (t.redefine id d).fetch id = .ok d :=
    (TypeTable.fetch_redefine hid).mpr (by rw [if_pos rfl])
  refine ⟨hfits, h.ordered.redefine hid hnamed hdeclares.members,
    List.forall_mem_append.mpr ⟨fun item' hitem' => ?_, ?_⟩⟩
  · refine (h.declared item' hitem').mono (.of_outlines houtlines) hfits.distinct
      fun id' e he hdeclared' => ?_
    refine (TypeTable.fetch_redefine hid).mpr ?_
    rw [if_neg ?_]
    · exact he
    -- The type of an earlier item has another name, so it is another one.
    · rintro rfl
      have hsame := congrArg TypeDef.name ((TypeTable.shows_of_fetch he).eq hshows)
      rw [TypeDef.name_outline, TypeDef.name_outline] at hsame
      exact hnew (hsame ▸ List.mem_map_of_mem (List.mem_filterMap.mpr ⟨item', hitem', hdeclared'⟩))
  · refine List.forall_mem_singleton.mpr fun name k hitem => ?_
    obtain ⟨rfl, -⟩ := Prod.mk.inj (Option.some.inj (hitem.symm.trans hdeclared))
    exact ⟨id, d, hfits.distinct.lookup? hself hnamed, hself,
      hdeclares.mono (.of_outlines houtlines)⟩

theorem Filled.defineTypes (hdistinct : (declaredNames items).Nodup)
    (h : Filled items [] t) {a : Unit} (hrun : (items.forM defineType).run t = .ok (a, u)) :
    Filled items items u := by
  rw [forM_eq_foldlM] at hrun
  refine foldlM_inv (I := fun pre _ t => Filled items pre t)
    (fun pre item post _ t _ u hitems h hrun => ?_) h hrun
  have hitem : item ∈ items := by simp [hitems]
  obtain ⟨hnone, rfl⟩ | ⟨v, id, d, hcontinues, hfits, hdeclares, hshows, rfl⟩ :=
    defineType_inv hdistinct hitem h.fits hrun
  · refine ⟨h.fits, h.ordered,
      List.forall_mem_append.mpr ⟨h.declared, List.forall_mem_singleton.mpr fun name k hk => ?_⟩⟩
    cases hnone.symm.trans hk
  · refine (h.of_continues hcontinues hfits).redefine hdeclares hshows ?_
    rw [hitems, declaredNames, List.filterMap_append, List.map_append, List.filterMap_cons,
      hdeclares.declared?.1] at hdistinct
    exact fun hold => (List.nodup_append.mp hdistinct).2.2 _ hold _ (List.mem_cons_self ..) rfl

end Types

section Functions
variable {f : Function} {s : SignatureExpr} {scopes : List ScopeExpr} {blocks : List BlockExpr}
    {b : Binding} {p q : Program}

structure ReadyFor (t : TypeTable) (s : SignatureExpr) (blocks : List BlockExpr)
    (f : Function) : Prop where
  signature : SignatureFor t s f.signature
  params : ∀ q ∈ s.params, f.bindings.contains q.name = true
  declared : ∀ d ∈ declarations (blocks.flatMap BlockExpr.body), ∃ b,
    f.bindings.get? d.name = some b ∧ BindingFor t d b
  types : ∀ b ∈ f.bindings.entries, t.Defines b.type

theorem FunctionFor.ready (h : FunctionFor t s blocks f)
    (hbody : Consistent (s.params.map ParamExpr.declaration)
      (declarations (blocks.flatMap BlockExpr.body))) :
    ReadyFor t s blocks f where
  signature := h.signature
  params q hq := by
    rw [← h.bindings.contains, List.find?_isSome]
    exact ⟨q.declaration, List.mem_append_left _ (List.mem_map_of_mem hq), beq_self_eq_true _⟩
  declared d hd := by
    have hfirst := h.bindings d.name
    rw [hbody d hd] at hfirst
    generalize f.bindings.get? d.name = bound at hfirst
    cases hfirst with
    | some hb => exact ⟨_, rfl, hb⟩
  types b hb := by
    obtain ⟨d, -, hd⟩ := exists_of_optionRel (h.bindings b.name) (Registry.get?_eq_some_of_mem hb)
    exact hd.type.defines

theorem ReadyFor.mono (hgrows : t.Grows u) (h : ReadyFor t s blocks f) : ReadyFor u s blocks f where
  signature := stable_signatureFor s f.signature t u hgrows h.signature
  params := h.params
  declared d hd := by
    obtain ⟨b, hb, hfor⟩ := h.declared d hd
    exact ⟨b, hb, hfor.mono hgrows⟩
  types b hb := hgrows.defines (h.types b hb)

theorem ReadyFor.addBinding (h : ReadyFor t s blocks f) (hnew : f.bindings.contains b.name = false)
    (hb : t.Defines b.type) : ReadyFor t s blocks (f.addBinding b) where
  signature := h.signature
  params q hq := by
    rw [Function.addBinding, Registry.contains_insert, h.params q hq, Bool.true_or]
  declared d hd := by
    obtain ⟨b', hb', hfor⟩ := h.declared d hd
    have hne : b.name ≠ d.name := by
      intro hsame
      rw [hsame, ← Registry.isSome_get?, hb'] at hnew
      cases hnew
    exact ⟨b', ((f.bindings.get?_insert b d.name).trans (if_neg hne)).trans hb', hfor⟩
  types := by
    rw [Function.addBinding, Registry.entries_insert_of_new hnew]
    exact List.forall_mem_append.mpr ⟨h.types, List.forall_mem_singleton.mpr hb⟩

/-- A reference that is introduced gets a type that is new at most in itself. -/
theorem ReadyFor.declareIntroduced (h : ReadyFor t s blocks f) (i : Instruction) :
    t.Continues (f.declareIntroduced t i).2 ∧
    ReadyFor (f.declareIntroduced t i).2 s blocks (f.declareIntroduced t i).1 := by
  obtain hsame | ⟨b, source, exclusive, hnew, hsource, htype, hintroduced⟩ :=
    f.declareIntroduced_cases t i
  · rw [hsame]
    exact ⟨.refl t, h⟩
  · obtain ⟨hkeeps, href⟩ := t.intern_spec (.ref source.type exclusive none)
    rw [hintroduced]
    refine ⟨TypeTable.continues_intern (List.forall_mem_singleton.mpr (h.types source hsource)), ?_⟩
    exact (h.mono hkeeps.grows).addBinding hnew ⟨_, htype ▸ href⟩

theorem ReadyFor.normalize (h : ReadyFor t s blocks f) (hfits : Fits items t) :
    t.Continues (f.normalize t).2 ∧
    Fits items (f.normalize t).2 ∧ ReadyFor (f.normalize t).2 s blocks (f.normalize t).1 := by
  refine Function.normalize_induction
    (P := fun g u => t.Continues u ∧ Fits items u ∧ ReadyFor u s blocks g) ?_ ⟨.refl t, hfits, h⟩
  rintro g u i ⟨hcontinues, hfits, h⟩
  obtain ⟨hstep, h⟩ := h.declareIntroduced i
  exact ⟨hcontinues.trans hstep,
    types_declareIntroduced (fun _ _ hnamed hu => hu.intern hnamed) hfits i, h⟩

structure Describes (t : TypeTable) (items : List Item) (p : Program) : Prop where
  names : (p.functions.names ++ p.externs.names).Perm (signatureNames items)
  functions : ∀ f ∈ p.functions.entries, ∃ s scopes blocks, Item.function s scopes blocks ∈ items ∧
    ReadyFor t s blocks f
  externs : ∀ sig ∈ p.externs.entries, ∃ s, Item.external s ∈ items ∧ SignatureFor t s sig

theorem Describes.mono (hgrows : t.Grows u) (h : Describes t pre p) : Describes u pre p where
  names := h.names
  functions f hf := by
    obtain ⟨s, scopes, blocks, hitem, hready⟩ := h.functions f hf
    exact ⟨s, scopes, blocks, hitem, hready.mono hgrows⟩
  externs sig hsig := by
    obtain ⟨s, hitem, hfor⟩ := h.externs sig hsig
    exact ⟨s, hitem, stable_signatureFor s sig t u hgrows hfor⟩

theorem Describes.hasFunctions (h : Describes t pre p) :
    HasFunctions p (signatureNames pre) := fun _ =>
  h.names.mem_iff.symm.trans List.mem_append

/-- What is there already is also described by a longer listing. -/
theorem Describes.concat (h : Describes t pre p)
    (hnames : (q.functions.names ++ q.externs.names).Perm (signatureNames (pre ++ [item])))
    (hfunctions : ∀ f ∈ q.functions.entries, f ∈ p.functions.entries ∨
      ∃ s scopes blocks, item = .function s scopes blocks ∧ ReadyFor t s blocks f)
    (hexterns : ∀ sig ∈ q.externs.entries, sig ∈ p.externs.entries ∨ ∃ s, item = .external s ∧
      SignatureFor t s sig) :
    Describes t (pre ++ [item]) q where
  names := hnames
  functions f hf := by
    rcases hfunctions f hf with hold | ⟨s, scopes, blocks, rfl, hready⟩
    · obtain ⟨s, scopes, blocks, hitem, hready⟩ := h.functions f hold
      exact ⟨s, scopes, blocks, List.mem_append_left _ hitem, hready⟩
    · exact ⟨s, scopes, blocks, List.mem_append_right _ (List.mem_singleton_self _), hready⟩
  externs sig hsig := by
    rcases hexterns sig hsig with hold | ⟨s, rfl, hfor⟩
    · obtain ⟨s, hitem, hfor⟩ := h.externs sig hold
      exact ⟨s, List.mem_append_left _ hitem, hfor⟩
    · exact ⟨s, List.mem_append_right _ (List.mem_singleton_self _), hfor⟩

theorem Describes.addExtern {sig : Signature} (h : Describes t pre p) (hsig : SignatureFor t s sig)
    (hnew : sig.name ∉ signatureNames pre) :
    Describes t (pre ++ [.external s]) (p.addExtern sig) := by
  have hfree : sig.name ∉ p.externs.names := fun hold => hnew ((h.hasFunctions _).mpr (.inr hold))
  have hcontains := Bool.eq_false_iff.mpr (mt Registry.contains_iff_mem_names.mp hfree)
  refine h.concat ?_ (fun f hf => .inl hf) ?_
  · have hnames : (p.addExtern sig).externs.names = p.externs.names ++ [sig.name] :=
      names_insert_of_new hfree
    rw [signatureNames_concat rfl, hnames, ← List.append_assoc, ← hsig.name]
    exact h.names.append_right _
  · rw [Program.addExtern, Registry.entries_insert_of_new hcontains]
    refine List.forall_mem_append.mpr
      ⟨fun _ hold => .inl hold, List.forall_mem_singleton.mpr (.inr ⟨s, rfl, hsig⟩)⟩

theorem Describes.addFunction (h : Describes t pre p) (hready : ReadyFor t s blocks f)
    (hnew : f.name ∉ signatureNames pre) :
    Describes t (pre ++ [.function s scopes blocks]) (p.addFunction f) := by
  have hfree : f.name ∉ p.functions.names := fun hold => hnew ((h.hasFunctions _).mpr (.inl hold))
  have hcontains := Bool.eq_false_iff.mpr (mt Registry.contains_iff_mem_names.mp hfree)
  refine h.concat ?_ ?_ fun sig hsig => .inl hsig
  · have hnames : (p.addFunction f).functions.names = p.functions.names ++ [f.name] :=
      names_insert_of_new hfree
    rw [signatureNames_concat rfl, hnames, List.append_assoc, ← hready.signature.name]
    exact (List.perm_append_comm.append_left _).trans
      (List.append_assoc .. ▸ h.names.append_right _)
  · rw [Program.addFunction, Registry.entries_insert_of_new hcontains]
    refine List.forall_mem_append.mpr
      ⟨fun _ hold => .inl hold, List.forall_mem_singleton.mpr (.inr ?_)⟩
    exact ⟨s, scopes, blocks, rfl, hready⟩

theorem checkUnique_inv {sig : Signature} {a : Unit} (hp : HasFunctions p (signatureNames pre))
    (h : (checkUnique p sig).run t = .ok (a, u)) : sig.name ∉ signatureNames pre ∧ t = u := by
  have hdecides : Decides pre (fun _ => True) (checkUnique p sig) (sig.name ∉ signatureNames pre)
      fun _ _ => True :=
    decides_checkUnique hp rfl
  exact ⟨(hdecides.of_run trivial h).1, (ensure_inv h).symm⟩

/-- A step through the listing adds the function that is written, if there is one, and keeps the
declared types. -/
theorem Describes.addItem (hitem : item ∈ items) (hfilled : Filled items items t)
    (h : Describes t pre p) (hrun : (addItem p item).run t = .ok (q, u)) :
    Filled items items u ∧ Describes u (pre ++ [item]) q := by
  have hmention : ∀ e ∈ item.types, Mentions items e.base := fun e he => ⟨item, hitem, e, he, rfl⟩
  cases item with
  | struct | variant =>
    cases hrun
    refine ⟨hfilled, h.concat ?_ (fun f hf => .inl hf) fun sig hsig => .inl hsig⟩
    rw [signatureNames_concat_of_none rfl]
    exact h.names
  | external s =>
    obtain ⟨sig, v, hsig, hrun⟩ := bind_inv hrun
    obtain ⟨-, ⟨hfits, -⟩, hfor⟩ := (decides_signature s hmention).of_run hfilled.fits hsig
    have hcontinues := continuing_signature s t sig v hsig
    obtain ⟨_, _, hunique, hlast⟩ := bind_inv hrun
    obtain ⟨hnew, rfl⟩ := checkUnique_inv h.hasFunctions hunique
    cases hlast
    exact ⟨hfilled.of_continues hcontinues hfits,
      (h.mono hcontinues.keeps.grows).addExtern hfor hnew⟩
  | function s scopes blocks =>
    obtain ⟨f, v, hf, hrun⟩ := bind_inv hrun
    obtain ⟨hcoherent, hfits, hfor⟩ :=
      (decides_function s scopes blocks hmention).of_run hfilled.fits hf
    have hbody := (hcoherent.body s scopes blocks rfl).declarations
    have hcontinues := continuing_function s scopes blocks t f v hf
    obtain ⟨_, _, hunique, hlast⟩ := bind_inv hrun
    obtain ⟨hnew, rfl⟩ := checkUnique_inv h.hasFunctions hunique
    cases hlast
    obtain ⟨hstep, hfits, hready⟩ := (hfor.ready hbody).normalize hfits
    have hall := hcontinues.trans hstep
    have hname : (f.normalize v).1.name = f.name :=
      congrArg Signature.name (f.signature_normalize v)
    exact ⟨hfilled.of_continues hall hfits,
      (h.mono hall.keeps.grows).addFunction hready (hname ▸ hnew)⟩

end Functions

theorem program_inv {p : Program} (h : (program items).run {} = .ok (p, u)) :
    Filled items items p.types ∧ Describes p.types items p := by
  obtain ⟨_, t₁, hdeclare, h⟩ := bind_inv h
  obtain ⟨hdistinct, hlists⟩ := decides_declareTypes.of_run lists_empty hdeclare
  have hordered :=
    (continuing_forM continuing_declareType items _ _ _ hdeclare).ordered TypeTable.ordered_empty
  obtain ⟨_, t₂, hdefine, h⟩ := bind_inv h
  have hfilled :=
    Filled.defineTypes hdistinct ⟨hlists.fits, hordered, fun item hitem => by cases hitem⟩ hdefine
  obtain ⟨q, t₃, hitems, h⟩ := bind_inv h
  cases h
  have hempty : Describes t₂ [] {} :=
    ⟨.refl [], fun f hf => (by cases hf), fun sig hsig => (by cases hsig)⟩
  obtain ⟨hfilled, hdescribes⟩ :=
    foldlM_inv (I := fun pre p t => Filled items items t ∧ Describes t pre p)
      (fun pre item post p t q u hsplit h hrun => h.2.addItem (by simp [hsplit]) h.1 hrun)
      ⟨hfilled, hempty⟩ hitems
  exact ⟨hfilled, hdescribes.names, hdescribes.functions, hdescribes.externs⟩

end Build
end Listing

structure Program.Closed (p : Program) : Prop where
  types : p.types.Ordered
  signatures : ∀ f ∈ p.functions.entries, f.signature.DefinedIn p.types
  bindings : ∀ f ∈ p.functions.entries, ∀ b ∈ f.bindings.entries, p.types.Defines b.type
  externs : ∀ s ∈ p.externs.entries, s.DefinedIn p.types
  names : (p.functions.names ++ p.externs.names).Nodup

namespace Listing

theorem Build.Describes.closed {items : List Item} {p : Program} (htypes : p.types.Ordered)
    (hitems : (signatureNames items).Nodup) (h : Describes p.types items p) : p.Closed where
  types := htypes
  signatures f hf := by
    obtain ⟨s, _, _, -, hready⟩ := h.functions f hf
    exact hready.signature.definedIn
  bindings f hf := by
    obtain ⟨s, _, _, -, hready⟩ := h.functions f hf
    exact hready.types
  externs sig hsig := by
    obtain ⟨s, -, hfor⟩ := h.externs sig hsig
    exact hfor.definedIn
  names := h.names.nodup_iff.mpr hitems

/-- The program of a listing is closed, so each of its types has a spelling. Each declared type has
the members of its one declaration, and each function has bindings for its parameters and for what
it declares. -/
theorem parse_closed {source : String} {file : Option String} {program : Program}
    (h : parse source file = .ok program) :
    program.Closed ∧ (∀ id ∈ program.types.ids, ∃ text, program.types.display id = .ok text) ∧
    ∃ items, parseItems source file = .ok items ∧ (declaredNames items).Nodup ∧
      (∀ item ∈ items, Build.HasDeclared program.types item) ∧
      Build.Describes program.types items program := by
  cases hitems : parseItems source file with
  | error e =>
    rw [parse, hitems] at h
    cases h
  | ok items =>
    rw [parse_of_items hitems] at h
    cases hrun : (Build.program items).run {} with
    | error e =>
      rw [hrun] at h
      cases h
    | ok r =>
      obtain ⟨p, u⟩ := r
      rw [hrun] at h
      cases h
      obtain ⟨hcoherent, -⟩ := Build.decides_program.of_run Build.lists_empty hrun
      obtain ⟨hfilled, hdescribes⟩ := Build.program_inv hrun
      refine ⟨hdescribes.closed hfilled.ordered hcoherent.signatures, fun id hid => ?_,
        items, rfl, hcoherent.types, hfilled.declared, hdescribes⟩
      exact TypeTable.display_total
        (hfilled.ordered.closed.grounded (TypeTable.defines_of_mem_ids hid))

/-- The struct refers to itself and holds an array of the variant, which is declared after it and
holds the struct. In the body, a reference is introduced to another one that is itself
introduced. -/
def forest : String :=
  "struct N \x7b a: &N, b: [V] \x7d variant V \x7b A, B(N) \x7d extern fn g(v: V)
  fn f(n: N) \x7b e: declare v: V; r = borrow n; q = borrow mut r; return; \x7d"

theorem forest_closed : ∃ program, parse forest none = .ok program ∧
    (program.types.size, program.functions.entries.map fun f => f.bindings.names) =
      (5, [["n", "v", "r", "q"]]) ∧
    program.Closed ∧ (∀ id ∈ program.types.ids, ∃ text, program.types.display id = .ok text) ∧
    ∃ items, parseItems forest none = .ok items ∧ (declaredNames items).Nodup ∧
      (∀ item ∈ items, Build.HasDeclared program.types item) ∧
      Build.Describes program.types items program := by
  have hshape : (parse forest none).toOption.map
      (fun p => (p.types.size, p.functions.entries.map fun f => f.bindings.names)) =
      some (5, [["n", "v", "r", "q"]]) := by decide +kernel
  cases hparse : parse forest none with
  | error e =>
    rw [hparse] at hshape
    cases hshape
  | ok program =>
    rw [hparse] at hshape
    exact ⟨program, rfl, Option.some.inj hshape, parse_closed hparse⟩

end Listing
end Ownership
