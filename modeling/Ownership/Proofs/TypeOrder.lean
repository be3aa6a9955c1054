import Ownership.Proofs.Outcome

/-! # Types in order

Types are registered after those that they are made of, except for the members of structs and
variants, which are put in when all names are known. So a table never has a type without all its
parts, and references and arrays are numbered after what they refer to or hold. All work on a
listing keeps this.
-/
namespace Ownership

namespace TypeTable
variable {t u v : TypeTable} {id m : TypeId} {d e : TypeDef}

theorem wraps_iff : t.Wraps id m ↔ ∃ d, t.fetch id = .ok d ∧ d.isNamed = false ∧ m ∈ d.members := by
  constructor
  · rintro (⟨exclusive, lifetime, hd⟩ | hd)
    · exact ⟨_, hd, rfl, List.mem_singleton_self m⟩
    · exact ⟨_, hd, rfl, List.mem_singleton_self m⟩
  · rintro ⟨d, hd, hunnamed, hm⟩
    cases d with
    | ref inner exclusive lifetime =>
      obtain rfl := List.mem_singleton.mp hm
      exact .inl ⟨exclusive, lifetime, hd⟩
    | array element =>
      obtain rfl := List.mem_singleton.mp hm
      exact .inr hd
    | scalar | string | struct | variant | unknown => cases hunnamed

structure Ordered (t : TypeTable) : Prop where
  members : t.Complete
  inner : ∀ id m, t.Wraps id m → m < id

theorem Ordered.lt_of_transGen (h : t.Ordered) (hm : Relation.TransGen t.Wraps id m) : m < id := by
  induction hm with
  | single hwraps => exact h.inner _ _ hwraps
  | tail _ hwraps ih => exact (h.inner _ _ hwraps).trans ih

theorem Ordered.closed (h : t.Ordered) : t.Closed :=
  ⟨h.members, fun id hcycle => lt_irrefl id (h.lt_of_transGen hcycle)⟩

theorem ordered_empty : ({} : TypeTable).Ordered := by
  have hnone : ∀ id d, ({} : TypeTable).fetch id ≠ .ok d := by
    intro id d hd
    obtain ⟨i, -, hi⟩ := fetch_iff.mp hd
    cases hi
  refine ⟨fun id d hd => absurd hd (hnone id d), fun id m hwraps => ?_⟩
  obtain ⟨d, hd, -⟩ := wraps_iff.mp hwraps
  exact absurd hd (hnone id d)

theorem Defines.lt_push (h : t.Defines m) : m < (t.push d).2 := by
  obtain ⟨e, he⟩ := h
  obtain ⟨i, rfl, hi⟩ := fetch_iff.mp he
  have hlt : i < t.size := (List.getElem?_eq_some_iff.mp hi).1
  change (i : Int) + 1 < (t.size : Int) + 1
  omega

structure Continues (t u : TypeTable) : Prop where
  keeps : t.Extends u
  ordered : t.Ordered → u.Ordered

theorem Continues.refl (t : TypeTable) : t.Continues t := ⟨.refl t, id⟩

theorem Continues.trans (h : t.Continues u) (h' : u.Continues v) : t.Continues v :=
  ⟨h.keeps.trans h'.keeps, h'.ordered ∘ h.ordered⟩

theorem continues_push (hd : ∀ m ∈ d.members, t.Defines m) : t.Continues (t.push d).1 := by
  have hkeeps := t.extends_push d
  refine ⟨hkeeps, fun ht => ⟨fun id e he m hm => ?_, fun id m hwraps => ?_⟩⟩
  · rcases fetch_of_push he with hold | ⟨-, rfl⟩
    · exact hkeeps.defines (ht.members id e hold m hm)
    · exact hkeeps.defines (hd m hm)
  · obtain ⟨e, he, hunnamed, hm⟩ := wraps_iff.mp hwraps
    rcases fetch_of_push he with hold | ⟨rfl, rfl⟩
    · exact ht.inner id m (wraps_iff.mpr ⟨e, hold, hunnamed, hm⟩)
    · exact (hd m hm).lt_push

theorem continues_intern (hd : ∀ m ∈ d.members, t.Defines m) : t.Continues (t.intern d).1 := by
  rw [intern]
  cases t.find? (· == d) with
  | none => exact continues_push hd
  | some id => exact .refl t

theorem continues_internNamed (hd : d.members = []) (h : t.internNamed d = .ok (u, id)) :
    t.Continues u ∧ u.Defines id := by
  rw [internNamed] at h
  cases hlookup : t.lookup? d.name with
  | none =>
    rw [hlookup] at h
    cases h
    refine ⟨continues_push fun m hm => ?_, d, t.fetch_push d⟩
    rw [hd] at hm
    cases hm
  | some found =>
    obtain ⟨e, he, -⟩ := lookup?_eq_some hlookup
    rw [hlookup] at h
    simp only [get?_eq_some.mpr he] at h
    split at h
    · cases h
      exact ⟨.refl t, e, he⟩
    · cases h

theorem continues_declareStruct {name : String} (h : t.declareStruct name = .ok (u, id)) :
    t.Continues u := by
  rw [declareStruct] at h
  cases hlookup : t.lookup? name with
  | none =>
    rw [hlookup] at h
    cases h
    exact continues_push fun m hm => by cases hm
  | some found =>
    rw [hlookup] at h
    dsimp only at h
    split at h
    · cases h
      exact .refl t
    · cases h

theorem get?_redefine (hid : t.Defines id) (m : Int) :
    (t.redefine id d).get? m = if m = id then some d else t.get? m := by
  obtain ⟨old, hold⟩ := hid
  obtain ⟨i, rfl, hi⟩ := fetch_iff.mp hold
  have hlt := (List.getElem?_eq_some_iff.mp hi).1
  have hindex : ((i : Int) + 1 - 1).toNat = i := by omega
  rw [get?, get?, redefine, hindex, List.getElem?_set, if_pos hlt]
  by_cases hpos : (1 : Int) ≤ m
  · have hsame : i = (m - 1).toNat ↔ m = (i : Int) + 1 := by omega
    simp only [if_pos hpos, hsame]
  · have hne : m ≠ (i : Int) + 1 := by omega
    rw [if_neg hpos, if_neg hpos, if_neg hne]

theorem fetch_redefine (hid : t.Defines id) :
    (t.redefine id d).fetch m = .ok e ↔ if m = id then d = e else t.fetch m = .ok e := by
  rw [← get?_eq_some, ← get?_eq_some, get?_redefine hid]
  split <;> simp

theorem Defines.redefine (hid : t.Defines id) (hm : t.Defines m) : (t.redefine id d).Defines m := by
  obtain ⟨e, he⟩ := hm
  by_cases hsame : m = id
  · exact ⟨d, (fetch_redefine hid).mpr (by rw [if_pos hsame])⟩
  · exact ⟨e, (fetch_redefine hid).mpr (by rwa [if_neg hsame])⟩

/-- Members may be put in whatever their numbers are. -/
theorem Ordered.redefine (ht : t.Ordered) (hid : t.Defines id) (hnamed : d.isNamed = true)
    (hd : ∀ m ∈ d.members, t.Defines m) : (t.redefine id d).Ordered := by
  refine ⟨fun id' e he m hm => hid.redefine ?_, fun id' m hwraps => ?_⟩
  · rw [fetch_redefine hid] at he
    split at he
    · exact hd m (he ▸ hm)
    · exact ht.members id' e he m hm
  · obtain ⟨e, he, hunnamed, hm⟩ := wraps_iff.mp hwraps
    rw [fetch_redefine hid] at he
    split at he
    · cases hunnamed.symm.trans (he ▸ hnamed)
    · exact ht.inner id' m (wraps_iff.mpr ⟨e, he, hunnamed, hm⟩)

theorem Extends.grows (h : t.Extends u) : t.Grows u := by
  refine List.IsPrefix.map _ (List.prefix_iff_getElem?.mpr fun i hi => ?_)
  obtain ⟨j, hij, hj⟩ := fetch_iff.mp (h _ _ (fetch_iff.mpr ⟨i, rfl, List.getElem?_eq_getElem hi⟩))
  obtain rfl : i = j := by
    have hsame : (i : Int) + 1 = (j : Int) + 1 := hij
    omega
  exact hj

/-- A type of a table without two of a name is found by its name. -/
theorem Distinct.lookup? (ht : t.Distinct) (hd : t.fetch id = .ok d) (hnamed : d.isNamed = true) :
    t.lookup? d.name = some id := by
  cases hlookup : t.lookup? d.name with
  | none => exact absurd (hasKind_of_fetch hd hnamed) (lookup?_eq_none.mp hlookup _)
  | some found =>
    obtain ⟨e, he, hnamed', hname⟩ := lookup?_eq_some hlookup
    have hkey : e.outline.key = d.outline.key := by
      rw [TypeDef.key_outline, TypeDef.key_outline, TypeDef.key_eq hnamed hnamed' hname]
    rw [ht.eq (shows_of_fetch he) (shows_of_fetch hd) hkey]

end TypeTable

namespace Listing.Build
variable {α β σ : Type} {items pre : List Item} {item : Item} {t u v : TypeTable} {id : TypeId}
    {d : TypeDef}

/-- A run of two pieces of work is a run of the first and then of the second. -/
theorem bind_inv {x : Build α} {f : α → Build β} {b : β} (h : (x >>= f).run t = .ok (b, v)) :
    ∃ a u, x.run t = .ok (a, u) ∧ (f a).run u = .ok (b, v) := by
  rw [StateT.run_bind] at h
  obtain ⟨r, hr, h⟩ := Except.bind_inv h
  exact ⟨r.1, r.2, hr, h⟩

theorem discard_inv {x : Build α} {b : Unit} (h : (Functor.discard x).run t = .ok (b, u)) :
    ∃ a, x.run t = .ok (a, u) := by
  obtain ⟨a, v, ha, h⟩ := bind_inv (x := x) (f := fun _ => pure ()) h
  cases h
  exact ⟨a, ha⟩

theorem ensure_inv {condition : Bool} {problem : Problem} {span : Span} {a : Unit}
    (h : (ensure condition problem span).run t = .ok (a, u)) : u = t := by
  cases condition with
  | true =>
    cases h
    rfl
  | false => cases h

theorem named_inv {f : TypeTable → Except NameClash (TypeTable × TypeId)}
    (h : (named f).run t = .ok (id, u)) : f t = .ok (u, id) := by
  cases hf : f t with
  | ok r =>
    rw [run_named_of_ok (hf.trans rfl)] at h
    cases h
    rfl
  | error c =>
    rw [run_named_of_error hf] at h
    cases h

theorem Decides.of_run {A : TypeTable → Prop} {x : Build α} {P : Prop} {Q : α → TypeTable → Prop}
    (h : Decides items A x P Q) (ht : A t) {a : α} (hrun : x.run t = .ok (a, u)) : P ∧ Q a u := by
  rcases h t ht with ⟨hP, b, v, hrun', -, hQ⟩ | ⟨-, e, hrun', -⟩
  · cases hrun.symm.trans hrun'
    exact ⟨hP, hQ⟩
  · cases hrun.symm.trans hrun'

/-- What holds of a loop's state at its start and is kept by each of its steps holds at its end. -/
theorem foldlM_inv {f : σ → α → Build σ} {I : List α → σ → TypeTable → Prop} {l : List α} {s s' : σ}
    (hstep : ∀ pre a post s t s' u, l = pre ++ a :: post → I pre s t → (f s a).run t = .ok (s', u) →
      I (pre ++ [a]) s' u)
    (hstart : I [] s t) (hrun : (l.foldlM f s).run t = .ok (s', u)) : I l s' u := by
  suffices hrest : ∀ rest pre s t, l = pre ++ rest → I pre s t →
    (rest.foldlM f s).run t = .ok (s', u) → I l s' u from
    hrest l [] s t rfl hstart hrun
  intro rest
  induction rest with
  | nil =>
    intro pre s t hl hI hrun
    cases hrun
    rwa [hl, List.append_nil]
  | cons a rest ih =>
    intro pre s t hl hI hrun
    rw [List.foldlM_cons] at hrun
    obtain ⟨s₁, t₁, hfirst, hrun⟩ := bind_inv hrun
    exact ih (pre ++ [a]) s₁ t₁ (by rw [hl, List.append_cons])
      (hstep pre a rest s t s₁ t₁ hl hI hfirst) hrun

section Continuing

def Continuing (x : Build α) : Prop := ∀ t a u, x.run t = .ok (a, u) → t.Continues u

theorem continuing_pure (a : α) : Continuing (pure a) := by
  intro t b u h
  cases h
  exact .refl t

theorem continuing_ensure (condition : Bool) (problem : Problem) (span : Span) :
    Continuing (ensure condition problem span) := by
  intro t a u h
  rw [ensure_inv h]
  exact .refl t

theorem Continuing.bind {x : Build α} {f : α → Build β} (hx : Continuing x)
    (hf : ∀ a, Continuing (f a)) : Continuing (x >>= f) := by
  intro t b v h
  obtain ⟨a, u, ha, h⟩ := bind_inv h
  exact (hx t a u ha).trans (hf a u b v h)

theorem continuing_foldlM {f : σ → α → Build σ} (hf : ∀ s a, Continuing (f s a))
    (l : List α) (s : σ) : Continuing (l.foldlM f s) := by
  intro t s' u h
  exact foldlM_inv (I := fun _ _ u => t.Continues u)
    (fun _ a _ s u s' v _ hu hrun => hu.trans (hf s a u s' v hrun)) (.refl t) h

theorem continuing_forM {f : α → Build Unit} (hf : ∀ a, Continuing (f a)) (l : List α) :
    Continuing (l.forM f) := by
  rw [forM_eq_foldlM]
  exact continuing_foldlM (fun _ => hf) l ()

theorem continuing_mapM {f : α → Build β} (hf : ∀ a, Continuing (f a)) (l : List α) :
    Continuing (l.mapM f) := by
  induction l with
  | nil => exact continuing_pure []
  | cons a l ih =>
    rw [List.mapM_cons]
    exact (hf a).bind fun b => ih.bind fun bs => continuing_pure _

theorem continuing_optionMapM {f : α → Build β} (hf : ∀ a, Continuing (f a)) (o : Option α) :
    Continuing (o.mapM f) := by
  cases o with
  | none => exact continuing_pure none
  | some a => exact (hf a).bind fun b => continuing_pure _

theorem typeId_inv (e : TypeExpr) (h : (typeId e).run t = .ok (id, u)) :
    t.Continues u ∧ u.Defines id := by
  induction e generalizing t u id with
  | named w =>
    rw [typeId] at h
    split at h
    next => exact TypeTable.continues_internNamed rfl (named_inv h)
    split at h
    next => exact TypeTable.continues_internNamed rfl (named_inv h)
    split at h
    next => exact TypeTable.continues_internNamed rfl (named_inv h)
    next =>
      rw [StateT.run_bind, StateT.run_get, pure_bind] at h
      cases hlookup : t.lookup? w.text with
      | none =>
        rw [hlookup] at h
        cases h
      | some found =>
        rw [hlookup] at h
        cases h
        obtain ⟨d, hd, -⟩ := TypeTable.lookup?_eq_some hlookup
        exact ⟨.refl t, d, hd⟩
  | array e ih =>
    obtain ⟨m, v, hm, h⟩ := bind_inv h
    obtain ⟨hcontinues, hdefines⟩ := ih hm
    cases h
    refine ⟨hcontinues.trans (TypeTable.continues_intern ?_), _, (v.intern_spec (.array m)).2⟩
    exact List.forall_mem_singleton.mpr hdefines
  | ref lifetime exclusive e ih =>
    obtain ⟨m, v, hm, h⟩ := bind_inv h
    obtain ⟨hcontinues, hdefines⟩ := ih hm
    cases h
    refine ⟨hcontinues.trans (TypeTable.continues_intern ?_), _,
      (v.intern_spec (.ref m exclusive lifetime)).2⟩
    exact List.forall_mem_singleton.mpr hdefines

theorem continuing_typeId (e : TypeExpr) : Continuing (typeId e) := fun _ _ _ h =>
    (typeId_inv e h).1

theorem continuing_declareType (item : Item) : Continuing (declareType item) := by
  intro t a u h
  cases item with
  | struct w finalizer fields =>
    obtain ⟨t₁, t₂, hget, h⟩ := bind_inv h
    cases hget
    obtain ⟨_, t₃, hensure, h⟩ := bind_inv h
    obtain ⟨id, h⟩ := discard_inv h
    rw [ensure_inv hensure] at h
    exact TypeTable.continues_declareStruct (named_inv h)
  | variant w arms =>
    obtain ⟨t₁, t₂, hget, h⟩ := bind_inv h
    cases hget
    obtain ⟨_, t₃, hensure, h⟩ := bind_inv h
    obtain ⟨id, h⟩ := discard_inv h
    rw [ensure_inv hensure] at h
    exact (TypeTable.continues_internNamed rfl (named_inv h)).1
  | external | function =>
    cases h
    exact .refl t

theorem continuing_fields (struct : String) (l : List (Word × TypeExpr)) (seen : List String) :
    Continuing (fields struct l seen) := by
  induction l generalizing seen with
  | nil => exact continuing_pure []
  | cons f l ih =>
    exact (continuing_ensure _ _ _).bind fun _ => (continuing_typeId f.2).bind fun id =>
      (ih _).bind fun ms => continuing_pure _

theorem continuing_arms (variant : String) (l : List (Word × List TypeExpr)) (seen : List String) :
    Continuing (arms variant l seen) := by
  induction l generalizing seen with
  | nil => exact continuing_pure []
  | cons a l ih =>
    exact (continuing_ensure _ _ _).bind fun _ =>
      (continuing_mapM continuing_typeId a.2).bind fun ids =>
        (ih _).bind fun cs => continuing_pure _

theorem continuing_param (p : ParamExpr) : Continuing (param p) :=
  (continuing_typeId p.type).bind fun _ => continuing_pure _

theorem continuing_signature (s : SignatureExpr) : Continuing (signature s) :=
  (continuing_forM (fun _ => continuing_ensure _ _ _) s.generics).bind fun _ =>
    (continuing_mapM continuing_param s.params).bind fun _ =>
      (continuing_optionMapM continuing_typeId s.returns).bind fun _ => continuing_pure _

theorem continuing_scope (f : Function) (s : ScopeExpr) : Continuing (scope f s) :=
  (continuing_ensure _ _ _).bind fun _ => continuing_pure _

theorem continuing_statement (f : Function) (x : StatementExpr) : Continuing (statement f x) := by
  obtain ⟨s, span⟩ := x
  cases s with
  | op op => exact continuing_pure _
  | declare mutable name type scope =>
    exact (continuing_typeId type).bind fun _ => (continuing_ensure _ _ _).bind fun _ =>
      continuing_pure _

theorem continuing_statements (f : Function) (l : List StatementExpr) :
    Continuing (statements f l) := by
  induction l generalizing f with
  | nil => exact continuing_pure _
  | cons x l ih =>
    exact (continuing_statement f x).bind fun r => (ih r.1).bind fun r' => continuing_pure _

theorem continuing_block (f : Function) (b : BlockExpr) : Continuing (block f b) :=
  (continuing_ensure _ _ _).bind fun _ => (continuing_statements f b.body).bind fun _ =>
    continuing_pure _

theorem continuing_function (s : SignatureExpr) (scopes : List ScopeExpr)
    (blocks : List BlockExpr) : Continuing (function s scopes blocks) :=
  (continuing_signature s).bind fun _ => (continuing_foldlM continuing_scope scopes _).bind fun f =>
    continuing_foldlM continuing_block blocks f

end Continuing

end Listing.Build
end Ownership
