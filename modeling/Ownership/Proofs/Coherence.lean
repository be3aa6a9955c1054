import Mathlib.Data.List.Nodup
import Ownership.Listing.Build
import Ownership.Proofs.Outlines

/-! # Coherent listings

A listing is coherent if it describes one program: names are declared once, every type that is
mentioned is a builtin one or a declared one and not both, and the declarations of a place agree.
All of this is about the syntax alone.
-/
namespace Ownership.Listing

def builtinKind? (name : String) : Option TypeKind :=
  if name = "String" then some .string
  else if name = "Unknown" then some .unknown
  else if Build.scalarNames.contains name then some .scalar
  else none

def TypeExpr.base : TypeExpr → String
  | named w => w.text
  | array e => e.base
  | ref _ _ e => e.base

def TypeExpr.unplaced : TypeExpr → TypeExpr
  | named w => named ⟨w.text, .unknown⟩
  | array e => array e.unplaced
  | ref lifetime exclusive e => ref lifetime exclusive e.unplaced

theorem TypeExpr.unplaced_unplaced (e : TypeExpr) : e.unplaced.unplaced = e.unplaced := by
  induction e with
  | named w => rfl
  | array e ih => exact congrArg array ih
  | ref lifetime exclusive e ih => exact congrArg (ref lifetime exclusive) ih

def SignatureExpr.types (s : SignatureExpr) : List TypeExpr :=
  s.params.map ParamExpr.type ++ s.returns.toList

structure Declaration where
  name : String
  type : TypeExpr
  scope : String
  mutable : Bool
deriving DecidableEq

def ParamExpr.declaration (p : ParamExpr) : Declaration :=
  ⟨p.name, p.type.unplaced, rootScope, p.mutable⟩

def Statement.declaration? : Statement → Option Declaration
  | declare mutable name type scope => some ⟨name, type.unplaced, scope.getD rootScope, mutable⟩
  | op _ => none

def Statement.type? : Statement → Option TypeExpr
  | declare _ _ type _ => some type
  | op _ => none

def declarations (statements : List StatementExpr) : List Declaration :=
  statements.filterMap fun x => x.statement.declaration?

def declaredTypes (statements : List StatementExpr) : List TypeExpr :=
  statements.filterMap fun x => x.statement.type?

namespace Item

def declared? : Item → Option (String × TypeKind)
  | struct w _ _ => some (w.text, .struct)
  | variant w _ => some (w.text, .variant)
  | _ => none

def memberNames : Item → List String
  | struct _ _ fields => fields.map fun f => f.1.text
  | variant _ arms => arms.map fun a => a.1.text
  | _ => []

def signature? : Item → Option SignatureExpr
  | external s => some s
  | function s _ _ => some s
  | _ => none

def types : Item → List TypeExpr
  | struct _ _ fields => fields.map Prod.snd
  | variant _ arms => arms.flatMap Prod.snd
  | external s => s.types
  | function s _ blocks => s.types ++ declaredTypes (blocks.flatMap BlockExpr.body)

end Item

def declaredNames (items : List Item) : List String := (items.filterMap Item.declared?).map Prod.fst

def signatureNames (items : List Item) : List String :=
  (items.filterMap Item.signature?).map SignatureExpr.name

def declaredKind? (items : List Item) (name : String) : Option TypeKind :=
  ((items.filterMap Item.declared?).find? fun d => d.1 == name).map Prod.snd

theorem declaredKind?_eq_some {items : List Item} {name : String} {k : TypeKind}
    (h : declaredKind? items name = some k) : ∃ item ∈ items, item.declared? = some (name, k) := by
  obtain ⟨d, hd, rfl⟩ := Option.map_eq_some_iff.mp h
  obtain ⟨item, hitem, hdeclared⟩ := List.mem_filterMap.mp (List.mem_of_find?_eq_some hd)
  have hname : d.1 = name := by simpa using List.find?_some hd
  exact ⟨item, hitem, by rw [hdeclared, ← hname]⟩

theorem declaredKind?_eq_none {items : List Item} {name : String} :
    declaredKind? items name = none ↔ name ∉ declaredNames items := by
  rw [declaredKind?, Option.map_eq_none_iff, List.find?_eq_none, declaredNames, List.mem_map]
  simp only [beq_iff_eq, not_exists, not_and]

theorem declaredKind?_concat {items : List Item} {item : Item} {n : String} {k : TypeKind}
    (h : item.declared? = some (n, k)) (name : String) :
    declaredKind? (items ++ [item]) name =
      (declaredKind? items name).or (if n = name then some k else none) := by
  rw [declaredKind?, List.filterMap_append, List.find?_append, Option.map_or, declaredKind?]
  congr 1
  by_cases hname : n = name <;> simp [h, hname]

/-- The kinds that a listing declares are not those of builtin types. -/
theorem kind_ne_of_builtin {items : List Item} {name : String} {k l : TypeKind}
    (hk : declaredKind? items name = some k) (hl : builtinKind? name = some l) : k ≠ l := by
  obtain ⟨item, -, hdeclared⟩ := declaredKind?_eq_some hk
  rintro rfl
  rw [builtinKind?] at hl
  cases item with
  | struct | variant =>
    cases hdeclared
    repeat' split at hl
    all_goals cases hl
  | external | function => cases hdeclared

/-- A listing has one type for a name: a builtin one or a declared one, and not both. -/
def Known (items : List Item) (name : String) : Prop :=
  (builtinKind? name).isSome ≠ (declaredKind? items name).isSome

/-- In a list of declarations each says of its name what is said first, be it among those known
before. -/
def Consistent (known ds : List Declaration) : Prop :=
  ∀ d ∈ ds, (known ++ ds).find? (fun e => e.name == d.name) = some d

/-- The body of a function has no scope and no label twice, and says the same of a place wherever it
declares it. Of two parameters with one name the first counts. -/
structure CoherentBody (s : SignatureExpr) (scopes : List ScopeExpr)
    (blocks : List BlockExpr) : Prop where
  scopes : (rootScope :: scopes.map ScopeExpr.name).Nodup
  labels : (blocks.map BlockExpr.label).Nodup
  declarations : Consistent (s.params.map ParamExpr.declaration)
    (declarations (blocks.flatMap BlockExpr.body))

structure CoherentItem (items : List Item) (item : Item) : Prop where
  members : item.memberNames.Nodup
  mentions : ∀ e ∈ item.types, Known items e.base
  lifetimes : ∀ s ∈ item.signature?, ∀ g ∈ s.generics, g.name ≠ staticLifetime
  body : ∀ s scopes blocks, item = .function s scopes blocks → CoherentBody s scopes blocks

structure Coherent (items : List Item) : Prop where
  types : (declaredNames items).Nodup
  signatures : (signatureNames items).Nodup
  each : ∀ item ∈ items, CoherentItem items item

def Mentions (items : List Item) (name : String) : Prop :=
  ∃ item ∈ items, ∃ e ∈ item.types, e.base = name

def TakesBuiltin (items : List Item) (name : String) (k : TypeKind) : Prop :=
  (builtinKind? name).isSome = true ∧ declaredKind? items name = some k ∧ Mentions items name

theorem declaredKind?_of_mem {items : List Item} (h : (declaredNames items).Nodup) {item : Item}
    (hitem : item ∈ items) {name : String} {k : TypeKind}
    (hdeclared : item.declared? = some (name, k)) :
    declaredKind? items name = some k := by
  have hmem : (name, k) ∈ items.filterMap Item.declared? :=
    List.mem_filterMap.mpr ⟨item, hitem, hdeclared⟩
  rw [declaredKind?]
  cases hfind : (items.filterMap Item.declared?).find? fun d => d.1 == name with
  | none => simpa using List.find?_eq_none.mp hfind _ hmem
  | some d =>
    have hname : d.1 = name := by simpa using List.find?_some hfind
    rw [List.inj_on_of_nodup_map h (List.mem_of_find?_eq_some hfind) hmem hname]
    rfl

theorem coherentItem_iff_of_declared {items : List Item} {item : Item}
    (h : item.declared?.isSome = true) :
    CoherentItem items item ↔ item.memberNames.Nodup ∧ ∀ e ∈ item.types, Known items e.base := by
  refine ⟨fun h => ⟨h.members, h.mentions⟩, ?_⟩
  rintro ⟨hmembers, hmentions⟩
  cases item with
  | struct | variant =>
    exact ⟨hmembers, hmentions, fun s hs => (by cases hs), fun _ _ _ h => (by cases h)⟩
  | external | function => cases h

theorem coherentItem_external {items : List Item} {s : SignatureExpr} :
    CoherentItem items (.external s) ↔
    (∀ g ∈ s.generics, g.name ≠ staticLifetime) ∧ ∀ e ∈ s.types, Known items e.base := by
  refine ⟨fun h => ⟨h.lifetimes s rfl, h.mentions⟩, ?_⟩
  rintro ⟨hlifetimes, hmentions⟩
  refine ⟨List.nodup_nil, hmentions, ?_, fun _ _ _ h => (by cases h)⟩
  rintro _ ⟨⟩
  exact hlifetimes

theorem coherentItem_function {items : List Item} {s : SignatureExpr} {scopes : List ScopeExpr}
    {blocks : List BlockExpr} : CoherentItem items (.function s scopes blocks) ↔
      ((∀ g ∈ s.generics, g.name ≠ staticLifetime) ∧ ∀ e ∈ s.types, Known items e.base) ∧
      (∀ e ∈ declaredTypes (blocks.flatMap BlockExpr.body), Known items e.base) ∧
      CoherentBody s scopes blocks := by
  constructor
  · intro h
    have hmentions := List.forall_mem_append.mp h.mentions
    exact ⟨⟨h.lifetimes s rfl, hmentions.1⟩, hmentions.2, h.body s scopes blocks rfl⟩
  · rintro ⟨⟨hlifetimes, htypes⟩, hdeclared, hbody⟩
    refine ⟨List.nodup_nil, List.forall_mem_append.mpr ⟨htypes, hdeclared⟩, ?_, ?_⟩
    · rintro _ ⟨⟩
      exact hlifetimes
    · rintro _ _ _ ⟨⟩
      exact hbody

section Consistent
variable {known l l' : List Declaration} {d : Declaration}

theorem consistent_nil : Consistent known [] := fun _ hd => by cases hd

theorem consistent_cons :
    Consistent known (d :: l) ↔ (∀ e ∈ known.find? (fun e => e.name == d.name), e = d) ∧
    Consistent (known ++ [d]) l := by
  have hfirst : (d :: l).find? (fun e => e.name == d.name) = some d :=
    List.find?_cons_of_pos (by simp)
  rw [Consistent, List.forall_mem_cons, List.find?_append, hfirst, Consistent, List.append_assoc,
    List.singleton_append]
  refine and_congr_left fun _ => ?_
  cases known.find? fun e => e.name == d.name <;> simp

theorem consistent_append :
    Consistent known (l ++ l') ↔ Consistent known l ∧ Consistent (known ++ l) l' := by
  induction l generalizing known with
  | nil => simp [consistent_nil]
  | cons d l ih => simp [consistent_cons, ih, and_assoc]

end Consistent

structure Fits (items : List Item) (t : TypeTable) : Prop where
  distinct : t.Distinct
  declared : ∀ name k, declaredKind? items name = some k → t.HasKind name k
  kinds : ∀ name k, t.HasKind name k →
    declaredKind? items name = some k ∨
    (declaredKind? items name = none ∧ builtinKind? name = some k)

def Denotes (t : TypeTable) : TypeExpr → TypeId → Prop
  | .named w, id => ∃ d, t.Shows id d ∧ d.isNamed = true ∧ d.name = w.text
  | .array e, id => ∃ m, t.Shows id (.array m) ∧ Denotes t e m
  | .ref lifetime exclusive e, id => ∃ m, t.Shows id (.ref m exclusive lifetime) ∧ Denotes t e m

section
variable {items : List Item} {t u : TypeTable} {e e' : TypeExpr} {id id' : TypeId}

theorem Denotes.mono (hgrows : t.Grows u) (h : Denotes t e id) : Denotes u e id := by
  induction e generalizing id with
  | named w =>
    obtain ⟨d, hd, hname⟩ := h
    exact ⟨d, hd.mono hgrows, hname⟩
  | array e ih =>
    obtain ⟨m, hm, he⟩ := h
    exact ⟨m, hm.mono hgrows, ih he⟩
  | ref lifetime exclusive e ih =>
    obtain ⟨m, hm, he⟩ := h
    exact ⟨m, hm.mono hgrows, ih he⟩

theorem Denotes.defines (h : Denotes t e id) : t.Defines id := by
  cases e with
  | named w =>
    obtain ⟨d, hd, -⟩ := h
    exact hd.defines
  | array e =>
    obtain ⟨m, hm, -⟩ := h
    exact hm.defines
  | ref lifetime exclusive e =>
    obtain ⟨m, hm, -⟩ := h
    exact hm.defines

theorem denotes_unplaced : Denotes t e.unplaced id ↔ Denotes t e id := by
  induction e generalizing id with
  | named w => rfl
  | array e ih => exact exists_congr fun m => and_congr_right fun _ => ih
  | ref lifetime exclusive e ih => exact exists_congr fun m => and_congr_right fun _ => ih

/-- A number stands for one type only. -/
theorem Denotes.unplaced_eq (h : Denotes t e id) (h' : Denotes t e' id) :
    e.unplaced = e'.unplaced := by
  induction e generalizing e' id with
  | named w =>
    obtain ⟨d, hd, hnamed, hname⟩ := h
    cases e' with
    | named w' =>
      obtain ⟨d', hd', -, hname'⟩ := h'
      rw [TypeExpr.unplaced, TypeExpr.unplaced, ← hname, ← hname', hd.eq hd']
    | array e' =>
      obtain ⟨m, hm, -⟩ := h'
      cases hd.eq hm
      cases hnamed
    | ref _ _ e' =>
      obtain ⟨m, hm, -⟩ := h'
      cases hd.eq hm
      cases hnamed
  | array e ih =>
    obtain ⟨m, hm, he⟩ := h
    cases e' with
    | named w' =>
      obtain ⟨d, hd, hnamed, -⟩ := h'
      cases hd.eq hm
      cases hnamed
    | array e' =>
      obtain ⟨m', hm', he'⟩ := h'
      cases hm.eq hm'
      rw [TypeExpr.unplaced, TypeExpr.unplaced, ih he he']
    | ref _ _ e' =>
      obtain ⟨m', hm', -⟩ := h'
      cases hm.eq hm'
  | ref lifetime exclusive e ih =>
    obtain ⟨m, hm, he⟩ := h
    cases e' with
    | named w' =>
      obtain ⟨d, hd, hnamed, -⟩ := h'
      cases hd.eq hm
      cases hnamed
    | array e' =>
      obtain ⟨m', hm', -⟩ := h'
      cases hm.eq hm'
    | ref _ _ e' =>
      obtain ⟨m', hm', he'⟩ := h'
      cases hm.eq hm'
      rw [TypeExpr.unplaced, TypeExpr.unplaced, ih he he']

/-- A type has one number only. -/
theorem Denotes.id_eq (ht : t.Distinct) (h : Denotes t e id) (h' : Denotes t e' id')
    (heq : e.unplaced = e'.unplaced) : id = id' := by
  induction e generalizing e' id id' with
  | named w =>
    cases e' with
    | named w' =>
      obtain ⟨d, hd, hnamed, hname⟩ := h
      obtain ⟨d', hd', hnamed', hname'⟩ := h'
      have htext : w.text = w'.text := by simpa [TypeExpr.unplaced] using heq
      exact ht.eq hd hd' (TypeDef.key_eq hnamed' hnamed (by rw [hname, hname', htext]))
    | array | ref => cases heq
  | array e ih =>
    cases e' with
    | array e' =>
      obtain ⟨m, hm, he⟩ := h
      obtain ⟨m', hm', he'⟩ := h'
      obtain rfl := ih he he' (TypeExpr.array.inj heq)
      exact ht.eq hm hm' rfl
    | named | ref => cases heq
  | ref lifetime exclusive e ih =>
    cases e' with
    | ref lifetime' exclusive' e' =>
      obtain ⟨m, hm, he⟩ := h
      obtain ⟨m', hm', he'⟩ := h'
      obtain ⟨rfl, rfl, hinner⟩ := TypeExpr.ref.inj heq
      obtain rfl := ih he he' hinner
      exact ht.eq hm hm' rfl
    | named | array => cases heq

/-- A builtin type that no declared one has the name of may be registered. -/
theorem Fits.push (h : Fits items t) {d : TypeDef} (hnew : ∀ k, ¬t.HasKind d.name k)
    (hdeclared : declaredKind? items d.name = none) (hbuiltin : builtinKind? d.name = some d.kind)
    (hnamed : d.isNamed = true) :
    Fits items (t.push d).1 where
  distinct := h.distinct.push (TypeTable.key_ne_of_not_hasKind hnamed hnew)
  declared name k hk := TypeTable.hasKind_push.mpr (.inl (h.declared name k hk))
  kinds name k hk := by
    rcases TypeTable.hasKind_push.mp hk with hk | ⟨-, rfl, rfl⟩
    · exact h.kinds name k hk
    · exact .inr ⟨hdeclared, hbuiltin⟩

theorem Fits.intern (h : Fits items t) {d : TypeDef} (hnamed : d.isNamed = false) :
    Fits items (t.intern d).1 := by
  obtain ⟨-, -, hdistinct, hkind⟩ := TypeTable.intern_unnamed hnamed t
  exact ⟨hdistinct h.distinct, fun name k hk => (hkind name k).mpr (h.declared name k hk),
    fun name k hk => h.kinds name k ((hkind name k).mp hk)⟩

theorem Fits.of_outlines (h : Fits items t) (hsame : u.outlines = t.outlines) : Fits items u := by
  obtain ⟨hdistinct, hdeclared, hkinds⟩ := h
  simp only [TypeTable.Distinct, TypeTable.HasKind, ← hsame] at hdistinct hdeclared hkinds
  exact ⟨hdistinct, hdeclared, hkinds⟩

end

end Ownership.Listing
